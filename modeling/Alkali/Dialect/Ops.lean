import Alkali.Dialect.Types

/-!
# Operations, blocks and functions

Values and operations are identified by numbers, as the compiler identifies
them by their addresses. A value that no operation of a function defines is a
block argument of that function.

Operations without state are one constructor, `compute`, which keeps the
mnemonic and the attributes as text. The operations that read or write state
name the global table, the buffer pool or the context field they refer to; the
operand that carries the reference stays in the operand list.
-/

namespace Alkali

open List

/-- The identity of an SSA value. -/
abbrev Value := Nat

/-- The identity of an operation. -/
abbrev OpId := Nat

/-- A piece of state that operations share. -/
inductive Cell
  | table (name : String)
  | bufferPool (name : String)
  | context (field : String)
  deriving DecidableEq, Repr

/-- An `ep2.init` of such a type creates an object. -/
def Ty.isObject : Ty → Bool
  | buffer => true
  | table _ _ _ => true
  | _ => false

/-- The operations of the dialect in value form, with their attributes. -/
inductive OpKind
  | compute (mnemonic : String)
  | constant (value : String)
  | init (ty : Ty)
  | globalImport (name : String)
  | lookup (table : String)
  | update (table : String)
  | updateAtomic (table : String) (opValue : Int)
  | bufferPoolFetch (pool : String)
  | bufferPoolCommit (pool : String)
  | contextRef (field : String)
  | load (field : String)
  | store (field : String)
  | sink
  | ret
  | branch
  | terminate
  deriving DecidableEq, Repr

namespace OpKind

/-- The state an operation reads. -/
def reads : OpKind → Option Cell
  | lookup t => some (.table t)
  | updateAtomic t _ => some (.table t)
  | bufferPoolFetch p => some (.bufferPool p)
  | load f => some (.context f)
  | _ => none

/-- The state an operation writes. -/
def writes : OpKind → Option Cell
  | update t => some (.table t)
  | updateAtomic t _ => some (.table t)
  | bufferPoolCommit p => some (.bufferPool p)
  | store f => some (.context f)
  | _ => none

/-- `isPure` as the dialect declares it: reading state counts as pure. -/
def isPure : OpKind → Bool
  | compute _ | constant _ | init _ | globalImport _ | lookup _
  | bufferPoolFetch _ | contextRef _ | load _ => true
  | _ => false

variable {k : OpKind}

theorem writes_of_isPure (h : k.isPure) : k.writes = none := by
  cases k <;> first | rfl | cases h

/-- The global table that an operation accesses through its first operand. -/
def table? : OpKind → Option String
  | lookup t | update t | updateAtomic t _ => some t
  | _ => none

/-- The operation touches no state other than tables. -/
def valueForm : OpKind → Bool
  | bufferPoolFetch _ | bufferPoolCommit _ | load _ | store _ => false
  | _ => true

variable {c : Cell} {t : String}

theorem valueForm_reads (h : k.valueForm) (hc : k.reads = some c) : ∃ t, c = .table t := by
  cases k with
  | lookup t | updateAtomic t _ => exact ⟨t, (Option.some.inj hc).symm⟩
  | _ => simp_all [reads, valueForm]

theorem valueForm_writes (h : k.valueForm) (hc : k.writes = some c) : ∃ t, c = .table t := by
  cases k with
  | update t | updateAtomic t _ => exact ⟨t, (Option.some.inj hc).symm⟩
  | _ => simp_all [writes, valueForm]

theorem table?_of_reads (h : k.reads = some (.table t)) : k.table? = some t := by
  cases k <;> simp_all [reads, table?]

theorem table?_of_writes (h : k.writes = some (.table t)) : k.table? = some t := by
  cases k <;> simp_all [writes, table?]

end OpKind

/-- An operation without regions. -/
structure PlainOp where
  id : OpId
  kind : OpKind
  operands : List Value
  results : List (Value × Ty)
  deriving DecidableEq, Repr

/-- An operation of a block: a plain one, or an `ep2.guard` around one. -/
inductive Operation
  | plain (op : PlainOp)
  | guard (id : OpId) (preds : List Value) (predAttrs : List Bool) (body : PlainOp)
  deriving DecidableEq, Repr

namespace Operation

def id : Operation → OpId
  | plain op => op.id
  | guard id _ _ _ => id

/-- The operation that `getGuardingOp` returns, or the operation itself. -/
def inner : Operation → PlainOp
  | plain op => op
  | guard _ _ _ body => body

/-- `getOperands`: for a guard these are its predicates only. -/
def operands : Operation → List Value
  | plain op => op.operands
  | guard _ preds _ _ => preds

/-- The operations inside of the region of the operation. -/
def nested : Operation → List PlainOp
  | plain _ => []
  | guard _ _ _ body => [body]

/-- The operands that occur inside of the region of the operation. -/
def nestedOperands : Operation → List Value
  | plain _ => []
  | guard _ _ _ body => body.operands

variable (o : Operation)

/-- All values that the operation uses, in its region too. -/
def uses : List Value := o.operands ++ o.nestedOperands

def results : Operation → List (Value × Ty)
  | plain op => op.results
  | guard _ _ _ _ => []

/-- The values that the operation defines. -/
def defs : List Value := o.results.map Prod.fst

/-- The values that executing the operation can bind. -/
def binds : List Value := o.inner.results.map Prod.fst

/-- The kind of a plain operation; a guard has none of these. -/
def kind? : Operation → Option OpKind
  | plain op => some op.kind
  | guard _ _ _ _ => none

def isGuard : Operation → Bool
  | plain _ => false
  | guard _ _ _ _ => true

/-- `isa<GlobalImportOp>` on the operation itself. -/
def isImport : Bool :=
  match o.kind? with
  | some (.globalImport _) => true
  | _ => false

/-- The operation initialises an event. -/
def isEventInit : Bool :=
  match o.kind? with
  | some (.init (.struct true _ _)) => true
  | _ => false

/-- `isa<ReturnOp>` on the operation itself. -/
def isReturn : Bool := o.kind? == some .ret

variable (op : PlainOp)

@[simp] theorem id_plain : (plain op).id = op.id := rfl
variable (i : OpId) (ps : List Value) (as : List Bool) (b : PlainOp)

@[simp] theorem id_guard : (guard i ps as b).id = i := rfl
@[simp] theorem inner_plain : (plain op).inner = op := rfl
@[simp] theorem inner_guard : (guard i ps as b).inner = b := rfl
@[simp] theorem operands_plain : (plain op).operands = op.operands := rfl
@[simp] theorem operands_guard : (guard i ps as b).operands = ps := rfl
@[simp] theorem nestedOperands_plain : (plain op).nestedOperands = [] := rfl
@[simp] theorem nestedOperands_guard : (guard i ps as b).nestedOperands = b.operands := rfl
@[simp] theorem defs_plain : (plain op).defs = op.results.map Prod.fst := rfl
@[simp] theorem defs_guard : (guard i ps as b).defs = [] := rfl

theorem mem_uses {o : Operation} {v : Value} :
    v ∈ o.uses ↔ v ∈ o.operands ∨ v ∈ o.nestedOperands := by
  simp [uses]

end Operation

/-- The operation that ends a block. -/
inductive Terminator
  | terminate
  | br (dest : Nat) (args : List Value)
  | condBr (cond : Value) (trueDest : Nat) (trueArgs : List Value)
      (falseDest : Nat) (falseArgs : List Value)
  deriving DecidableEq, Repr

namespace Terminator

/-- The operands of the terminator. -/
def operands : Terminator → List Value
  | terminate => []
  | br _ args => args
  | condBr c _ ts _ fs => c :: (ts ++ fs)

/-- The successor blocks, one entry for each outgoing edge. -/
def successors : Terminator → List Nat
  | terminate => []
  | br d _ => [d]
  | condBr _ d _ d' _ => [d, d']

/-- The terminator as an operation of its block. -/
def toOperation (id : OpId) : Terminator → Operation
  | terminate => .plain ⟨id, .terminate, [], []⟩
  | t => .plain ⟨id, .branch, t.operands, []⟩

end Terminator

/-- A basic block. Blocks are referred to by their position in the region. -/
structure Block where
  args : List (Value × Ty)
  ops : List Operation
  termId : OpId
  term : Terminator
  deriving DecidableEq, Repr

/-- All operations of the block, its terminator included. -/
def Block.operations (blk : Block) : List Operation :=
  blk.ops ++ [blk.term.toOperation blk.termId]

/-- An `ep2.func`. The first block is the entry block. -/
structure FuncOp where
  name : String
  blocks : List Block
  deriving DecidableEq, Repr

theorem le_foldr_max {l : List Nat} {n : Nat} (h : n ∈ l) : n ≤ l.foldr max 0 := by
  induction l with
  | nil => cases h
  | cons m l ih =>
    rcases mem_cons.mp h with rfl | h
    · exact Nat.le_max_left _ _
    · exact Nat.le_trans (ih h) (Nat.le_max_right _ _)

namespace FuncOp

variable (f : FuncOp)

/-- The operations of all blocks, without those inside of guards. -/
def operations : List Operation := f.blocks.flatMap Block.operations

/-- `walk`: the operations of all blocks, those inside of guards included. -/
def walk : List Operation :=
  f.operations.flatMap fun o => o :: o.nested.map .plain

/-- The arguments of the function are those of its entry block. -/
def args : List (Value × Ty) := (f.blocks.head?.map Block.args).getD []

/-- `getDefiningOp`: a value without one is a block argument. -/
def definingOp (v : Value) : Option Operation :=
  f.operations.find? fun o => v ∈ o.defs

/-- The type of a value. -/
def typeOf (v : Value) : Option Ty :=
  ((f.blocks.flatMap fun blk => blk.args ++ blk.ops.flatMap Operation.results).find?
    fun r => r.1 = v).map Prod.snd

/-- `use_empty`: uses inside of guards count. -/
def useEmpty (v : Value) : Bool := f.operations.all fun o => v ∉ o.uses

/-- The predecessors of block `b`, one entry for each incoming edge. -/
def predecessors (b : Nat) : List Nat :=
  f.blocks.zipIdx.flatMap fun p =>
    p.1.term.successors.filterMap fun d => if d = b then some p.2 else none

/-- The operations before the terminators. -/
def bodyOps : List Operation := f.blocks.flatMap Block.ops

/-- All values that occur in the function. -/
def values : List Value :=
  (f.blocks.flatMap fun blk => blk.args.map Prod.fst) ++
    f.operations.flatMap fun o => o.uses ++ o.binds

/-- The identity of the next value that is created. -/
def nextValue : Value := f.values.foldr max 0 + 1

variable {f}
variable {v : Value} {o : Operation}

theorem mem_of_definingOp (h : f.definingOp v = some o) : o ∈ f.operations ∧ v ∈ o.defs := by
  refine ⟨mem_of_find?_eq_some h, ?_⟩
  simpa using find?_some h

theorem useEmpty_eq_false (ho : o ∈ f.operations) (hv : v ∈ o.uses) : f.useEmpty v = false := by
  rw [useEmpty, all_eq_false]
  exact ⟨o, ho, by simpa using hv⟩

theorem mem_walk : o ∈ f.walk ↔ o ∈ f.operations ∨
      ∃ p ∈ f.operations, ∃ b ∈ p.nested, o = .plain b := by
  simp only [walk, mem_flatMap, mem_cons, mem_map]
  constructor
  · rintro ⟨p, hp, rfl | ⟨b, hb, rfl⟩⟩
    · exact Or.inl hp
    · exact Or.inr ⟨p, hp, b, hb, rfl⟩
  · rintro (ho | ⟨p, hp, b, hb, rfl⟩)
    · exact ⟨o, ho, Or.inl rfl⟩
    · exact ⟨p, hp, Or.inr ⟨b, hb, rfl⟩⟩

theorem mem_operations_iff_body : o ∈ f.operations ↔
    o ∈ f.bodyOps ∨ ∃ blk ∈ f.blocks, o = blk.term.toOperation blk.termId := by
  simp only [operations, bodyOps, Block.operations, mem_flatMap, mem_append, mem_singleton]
  constructor
  · rintro ⟨blk, hblk, ho | ho⟩
    · exact Or.inl ⟨blk, hblk, ho⟩
    · exact Or.inr ⟨blk, hblk, ho⟩
  · rintro (⟨blk, hblk, ho⟩ | ⟨blk, hblk, ho⟩)
    · exact ⟨blk, hblk, Or.inl ho⟩
    · exact ⟨blk, hblk, Or.inr ho⟩

theorem lt_nextValue (h : v ∈ f.values) : v < f.nextValue :=
  Nat.lt_succ_of_le (le_foldr_max h)

theorem mem_values_of_uses (ho : o ∈ f.operations) (hv : v ∈ o.uses) : v ∈ f.values :=
  mem_append_right _ (mem_flatMap.mpr ⟨o, ho, mem_append_left _ hv⟩)

theorem mem_values_of_binds (ho : o ∈ f.operations) (hv : v ∈ o.binds) : v ∈ f.values :=
  mem_append_right _ (mem_flatMap.mpr ⟨o, ho, mem_append_right _ hv⟩)

end FuncOp

end Alkali
