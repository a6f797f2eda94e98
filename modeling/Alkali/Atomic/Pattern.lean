import Alkali.Linearize.Lift

/-!
# `LoadModifyWritePattern`

A lookup whose only use is an addition or a subtraction, whose only use in turn
is an update of the same table, is turned into an `UpdateAtomicOp` in the place
of the update.
-/

namespace Alkali

/-- Replace an operation, also inside of a guard. -/
def Operation.replace (old new : PlainOp) : Operation → Operation
  | plain op => plain (if op = old then new else op)
  | guard id preds predAttrs body => guard id preds predAttrs (if body = old then new else body)

/-- What the pattern matches: the operation on the loaded value, the update of
the table, and the operation that takes its place. -/
structure AtomicMatch where
  table : String
  user : PlainOp
  result : Value
  store : PlainOp
  atomic : PlainOp
  deriving DecidableEq, Repr

/-- What becomes of an operation: the one on the loaded value is erased, and the
atomic update takes the place of the update. -/
def AtomicMatch.rewriteOp (m : AtomicMatch) (o : Operation) : Option Operation :=
  if o.inner = m.user then none else some (o.replace m.store m.atomic)

/-- The opcode of the atomic update and its operand. The source gives a
subtraction the opcode of an addition. -/
def atomicOperand (loaded : Value) (user : PlainOp) : Option (Int × Value) :=
  match user.kind, user.operands with
  | .compute "add", [lhs, rhs] => some (1, if rhs = loaded then lhs else rhs)
  | .compute "sub", [lhs, rhs] => some (1, if rhs = loaded then lhs else rhs)
  | _, _ => none

namespace FuncOp

variable (f : FuncOp)

/-- `getUsers`: an entry for every use of the value. -/
def users (v : Value) : List Operation :=
  f.walk.flatMap fun o => o.operands.filterMap fun u => if u = v then some o else none

/-- The table of the lookup is a `GlobalImportOp`. -/
def fromImport (table : Value) : Bool :=
  match f.definingOp table with
  | some o => o.isImport
  | none => false

/-- The update that stores the result of an operation, if this is its only use. -/
def storeOf (t : String) (table result : Value) : Option PlainOp :=
  match f.users result with
  | [.plain store] =>
    if store.kind = .update t ∧ store.operands.head? = some table ∧ store.results = [] then
      some store
    else none
  | _ => none

/-- The checks of `matchAndRewrite` for a lookup. -/
def matchLoad (load : PlainOp) : Option AtomicMatch :=
  match load.kind, load.operands, load.results with
  | .lookup t, [table, key], [(loaded, _)] =>
    if f.fromImport table then
      match f.users loaded with
      | [.plain user] =>
        match atomicOperand loaded user, user.results with
        | some (opValue, value), [(result, _)] =>
          if value = loaded then none
          else
            (f.storeOf t table result).map fun store =>
              { table := t, user, result, store
                atomic := ⟨f.nextId, .updateAtomic t opValue, [table, key, value], []⟩ }
        | _, _ => none
      | _ => none
    else none
  | _, _, _ => none

/-- Change or erase the operations of all blocks. -/
def filterMapOps (g : Operation → Option Operation) : FuncOp :=
  { f with blocks := f.blocks.map fun blk => { blk with ops := blk.ops.filterMap g } }

def replaceMatch (m : AtomicMatch) : FuncOp := f.filterMapOps m.rewriteOp

/-- `matchAndRewrite` for a lookup of the function. -/
def atomicRewrite (load : PlainOp) : Option FuncOp := (f.matchLoad load).map f.replaceMatch

/-- The driver erases operations that are pure and not used. -/
def isTriviallyDead (op : PlainOp) : Bool :=
  op.kind.isPure && op.results.all fun r => f.users r.1 = []

def eraseDead (op : PlainOp) : FuncOp :=
  f.filterMapOps fun o => if o.inner = op then none else some o

variable {f}

theorem mem_users {v : Value} {o : Operation} : o ∈ f.users v ↔ o ∈ f.walk ∧ v ∈ o.operands := by
  simp only [users, List.mem_flatMap, List.mem_filterMap]
  constructor
  · rintro ⟨p, hp, u, hu, heq⟩
    split at heq
    · next h =>
        cases heq
        exact ⟨hp, h ▸ hu⟩
    · cases heq
  · rintro ⟨ho, hv⟩
    exact ⟨o, ho, v, hv, if_pos rfl⟩

/-- What is known about a match. -/
structure IsMatch (f : FuncOp) (load : PlainOp) (m : AtomicMatch) (table key value : Value) :
    Prop where
  load_operands : load.operands = [table, key]
  load_kind : load.kind = .lookup m.table
  result : m.user.results.map Prod.fst = [m.result]
  user_mem : .plain m.user ∈ f.walk
  user_kind : m.user.kind = .compute "add" ∨ m.user.kind = .compute "sub"
  value_mem : value ∈ m.user.operands
  stored : f.users m.result = [.plain m.store]
  store_kind : m.store.kind = .update m.table
  store_table : m.store.operands.head? = some table
  store_results : m.store.results = []
  atomic_kind : m.atomic.kind = .updateAtomic m.table 1
  atomic_operands : m.atomic.operands = [table, key, value]
  atomic_results : m.atomic.results = []

theorem storeOf_eq_some {t : String} {table result : Value} {store : PlainOp}
    (h : f.storeOf t table result = some store) :
    f.users result = [.plain store] ∧ store.kind = .update t ∧
      store.operands.head? = some table ∧ store.results = [] := by
  unfold storeOf at h
  split at h
  · next hstored =>
      split_ifs at h with hstore
      cases h
      exact ⟨hstored, hstore⟩
  · cases h

theorem atomicOperand_eq_some {loaded value : Value} {user : PlainOp} {opValue : Int}
    (h : atomicOperand loaded user = some (opValue, value)) :
    (user.kind = .compute "add" ∨ user.kind = .compute "sub") ∧ value ∈ user.operands ∧
      opValue = 1 := by
  unfold atomicOperand at h
  split at h
  · next hkind hops =>
      cases h
      refine ⟨Or.inl hkind, ?_, rfl⟩
      rw [hops]
      split <;> simp
  · next hkind hops =>
      cases h
      refine ⟨Or.inr hkind, ?_, rfl⟩
      rw [hops]
      split <;> simp
  · cases h

theorem isMatch_of_matchLoad {load : PlainOp} {m : AtomicMatch} (h : f.matchLoad load = some m) :
    ∃ table key value, f.IsMatch load m table key value := by
  unfold matchLoad at h
  split at h
  · next t table key loaded _ hkind hops hres =>
      split_ifs at h with himport
      split at h
      · next user husers =>
          split at h
          · next opValue value result _ hop hresults =>
              split_ifs at h with hvalue
              obtain ⟨store, hstore, rfl⟩ := Option.map_eq_some_iff.mp h
              obtain ⟨hstored, hstoreKind, hhead, hstoreRes⟩ := storeOf_eq_some hstore
              obtain ⟨huser, hmem, rfl⟩ := atomicOperand_eq_some hop
              have huserMem : .plain user ∈ f.users loaded := by simp [husers]
              exact ⟨table, key, value, hops, hkind, by simp [hresults],
                (mem_users.mp huserMem).1, huser, hmem,
                hstored,
                hstoreKind, hhead, hstoreRes, rfl, rfl, rfl⟩
          · cases h
      · cases h
  · cases h

end FuncOp

end Alkali
