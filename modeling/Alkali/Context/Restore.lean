import Alkali.Context.Identify
import Alkali.Linearize.Cse
import Alkali.Lowering.Returns

/-!
# Arguments in the memory of the context

`restoreContext` removes the named arguments of a stage. The stage gets the context as
its first argument and loads the removed arguments from the context at its start. Where
it initialises an event for the next stage, it stores the named operands in the context
and passes the context on with the other operands.
-/

namespace Alkali

open List ContextIdentification FuncOp

/-- A stage with the attributes that name its arguments and the operands of its events. -/
structure NamedStage where
  func : FuncOp
  argNames : Names
  initNames : PlainOp → Option (List String)

/-- An argument that is removed, the reference to its place in the context, and the
value that is loaded from there. -/
structure ContextArg where
  name : String
  arg : Value
  ty : Ty
  ref : Value
  load : Value

/-- The elements of a list whose positions have no name, where the list starts at position `j`. -/
def unnamed {α : Type} (names : Names) : Nat → List α → List α
  | _, [] => []
  | j, x :: xs =>
    if (names j).isSome then unnamed names (j + 1) xs else x :: unnamed names (j + 1) xs

namespace NamedStage

variable (s : NamedStage)

/-- The new first argument. -/
def ctx : Value := s.func.nextValue

/-- The first argument of each name, with new values from `n` on. -/
def contextArgsFrom : List (Value × Ty) → Nat → List String → Value → List ContextArg
  | [], _, _, _ => []
  | arg :: args, j, seen, n =>
    match s.argNames j with
    | none => contextArgsFrom args (j + 1) seen n
    | some a =>
      if a ∈ seen then contextArgsFrom args (j + 1) seen n
      else ⟨a, arg.1, arg.2, n, n + 1⟩ :: contextArgsFrom args (j + 1) (a :: seen) (n + 2)

def contextArgs : List ContextArg := s.contextArgsFrom s.func.args 0 [] (s.ctx + 1)

/-- Values from here on are not used for arguments. -/
def firstFree : Value := s.ctx + 1 + 2 * s.func.args.length

/-- `replaceAllUsesWith`: a removed argument is replaced by what is loaded. -/
def subst (v : Value) : Value :=
  ((s.contextArgs.find? fun r => r.arg = v).map ContextArg.load).getD v

def refOp (r : ContextArg) : Operation :=
  .plain ⟨s.func.nextId + 2 * r.ref, .contextRef r.name, [s.ctx], [(r.ref, .contextRef r.ty)]⟩

def loadOp (r : ContextArg) : Operation :=
  .plain ⟨s.func.nextId + 2 * r.load, .load r.name, [r.ref], [(r.load, r.ty)]⟩

/-- What is inserted at the start of the stage. -/
def prelude : List Operation := s.contextArgs.map s.refOp ++ s.contextArgs.map s.loadOp

/-- The store for an operand of an event. An operand that is the removed argument of its
own name is in its place. -/
def storeOp (n v : Value) (a : String) : List Operation :=
  if a = "" then []
  else
    match s.contextArgs.find? fun r => r.name = a with
    | some r =>
      if v = r.arg then []
      else [.plain ⟨s.func.nextId + 2 * n + 1, .store a, [r.ref, s.subst v], []⟩]
    | none =>
      [.plain ⟨s.func.nextId + 2 * n, .contextRef a, [s.ctx],
          [(n, .contextRef ((s.func.typeOf v).getD .any))]⟩,
        .plain ⟨s.func.nextId + 2 * n + 1, .store a, [n, s.subst v], []⟩]

/-- The stores for the operands of an event, with new values from `n` on. -/
def storeOps : Value → List Value → List String → List Operation
  | n, v :: vs, a :: names => s.storeOp n v a ++ storeOps (n + 1) vs names
  | _, _, _ => []

variable (operands : List Value)

/-- The operands that are passed on with an event. -/
def keptOperands (names : List String) : List Value :=
  (operands.zip names).filterMap fun p => if p.2 = "" then some p.1 else none

/-- The context comes after the atom of an event. -/
def newOperands (names : List String) : List Value :=
  match keptOperands operands names with
  | [] => [s.ctx]
  | v :: vs =>
    if operands.head?.bind s.func.typeOf = some .atom then v :: s.ctx :: vs else s.ctx :: v :: vs

def typeOf (v : Value) : Ty := if v = s.ctx then .context else (s.func.typeOf v).getD .any

/-- The type of an event with other operands. -/
def newEvent : OpKind → Ty
  | .init (.struct isEvent _ name) => .struct isEvent (operands.map s.typeOf) name
  | _ => .none

/-- The `InitOp` that takes the place of another one. -/
def newInit (op : PlainOp) (names : List String) : PlainOp :=
  let operands := s.newOperands op.operands names
  let ty := s.newEvent operands op.kind
  { op with
    kind := .init ty
    operands := operands.map s.subst
    results := op.results.map fun r => (r.1, ty) }

def rewriteOp (n : Value) : Operation → List Operation
  | .plain op =>
    match s.initNames op with
    | some names => s.storeOps n op.operands names ++ [.plain (s.newInit op names)]
    | none => [.plain (op.rename s.subst)]
  | o => [o.rename s.subst]

def rewriteOps : Value → List Operation → List Operation
  | _, [] => []
  | n, o :: ops => s.rewriteOp n o ++ rewriteOps (n + o.operands.length) ops

def rewriteBlocks : Value → List Block → List Block
  | _, [] => []
  | n, blk :: blks =>
    { blk with ops := s.rewriteOps n blk.ops, term := blk.term.rename s.subst } ::
      rewriteBlocks (n + (blk.ops.map fun o => o.operands.length).sum) blks

/-- The context and the arguments that are not removed. -/
def newArgs : List (Value × Ty) :=
  (s.ctx, .context) :: s.func.args.filter fun a => a.1 ∉ s.contextArgs.map ContextArg.arg

def restoreContext : FuncOp :=
  { s.func with
    blocks := (s.rewriteBlocks s.firstFree s.func.blocks).modifyHead fun blk =>
      { blk with args := s.newArgs, ops := s.prelude ++ blk.ops } }

/-! ## The removed arguments -/

variable {s}
variable {r : ContextArg} {v : Value}

/-- An argument is removed, or it has no name or that of an earlier one. -/
theorem contextArgsFrom_cons (arg : Value × Ty) (args : List (Value × Ty)) (j : Nat)
    (seen : List String) (n : Value) :
    ((∀ a, s.argNames j = some a → a ∈ seen) ∧
      s.contextArgsFrom (arg :: args) j seen n = s.contextArgsFrom args (j + 1) seen n) ∨
    ∃ a, s.argNames j = some a ∧ a ∉ seen ∧ s.contextArgsFrom (arg :: args) j seen n =
      ⟨a, arg.1, arg.2, n, n + 1⟩ :: s.contextArgsFrom args (j + 1) (a :: seen) (n + 2) := by
  rw [contextArgsFrom]
  cases s.argNames j with
  | none => exact Or.inl ⟨nofun, rfl⟩
  | some a =>
    by_cases hseen : a ∈ seen
    · exact Or.inl ⟨fun b hb => Option.some.inj hb ▸ hseen, if_pos hseen⟩
    · exact Or.inr ⟨a, rfl, hseen, if_neg hseen⟩

variable {seen : List String} {arg : Value × Ty}

theorem mem_contextArgsFrom {args : List (Value × Ty)} {j n : Nat}
    (h : r ∈ s.contextArgsFrom args j seen n) :
    r.name ∉ seen ∧ (∃ k < args.length, r.ref = n + 2 * k) ∧ r.load = r.ref + 1 ∧
      ∃ i, args[i]? = some (r.arg, r.ty) ∧ s.argNames (j + i) = some r.name := by
  induction args generalizing j seen n with
  | nil => cases h
  | cons arg args ih =>
    rcases contextArgsFrom_cons arg args j seen n with ⟨-, heq⟩ | ⟨a, hj, hseen, heq⟩ <;>
      rw [heq] at h
    · obtain ⟨hname, ⟨k, hk, href⟩, hload, i, hi, hnamed⟩ := ih h
      rw [Nat.add_right_comm, Nat.add_assoc] at hnamed
      exact ⟨hname, ⟨k, Nat.lt_succ_of_lt hk, href⟩, hload, i + 1, hi, hnamed⟩
    · rcases mem_cons.mp h with rfl | h
      · exact ⟨hseen, ⟨0, Nat.succ_pos _, rfl⟩, rfl, 0, rfl, hj⟩
      · obtain ⟨hname, ⟨k, hk, href⟩, hload, i, hi, hnamed⟩ := ih h
        rw [Nat.add_right_comm, Nat.add_assoc] at hnamed
        exact ⟨not_mem_of_not_mem_cons hname, ⟨k + 1, Nat.succ_lt_succ hk, by lia⟩, hload,
          i + 1, hi, hnamed⟩

variable (args : List (Value × Ty))

theorem contextArgsFrom_pairwise (j : Nat) (seen : List String) (n : Value) :
    (s.contextArgsFrom args j seen n).Pairwise fun r r' =>
      r.name ≠ r'.name ∧ r.load < r'.ref := by
  induction args generalizing j seen n with
  | nil => exact .nil
  | cons arg args ih =>
    rcases contextArgsFrom_cons arg args j seen n with ⟨-, heq⟩ | ⟨a, -, -, heq⟩ <;> rw [heq]
    · exact ih (j + 1) seen n
    · refine .cons (fun r hr => ?_) (ih (j + 1) (a :: seen) (n + 2))
      obtain ⟨hname, ⟨k, -, href⟩, -⟩ := mem_contextArgsFrom hr
      exact ⟨fun h => hname (h ▸ mem_cons_self), by lia⟩

theorem contextArgsFrom_sublist (j : Nat) (seen : List String) (n : Value) :
    ((s.contextArgsFrom args j seen n).map ContextArg.arg).Sublist (args.map Prod.fst) := by
  induction args generalizing j seen n with
  | nil => exact .slnil
  | cons arg args ih =>
    rcases contextArgsFrom_cons arg args j seen n with ⟨-, heq⟩ | ⟨a, -, -, heq⟩ <;> rw [heq]
    · exact (ih (j + 1) seen n).cons _
    · exact (ih (j + 1) (a :: seen) (n + 2)).cons_cons _

/-- The first argument of a name is removed. -/
theorem exists_contextArgFrom {args : List (Value × Ty)} {j i n : Nat} {a : String}
    (hi : args[i]? = some arg) (hname : s.argNames (j + i) = some a) (hseen : a ∉ seen)
    (hfirst : ∀ k < i, s.argNames (j + k) ≠ some a) :
    ∃ r ∈ s.contextArgsFrom args j seen n, r.name = a ∧ r.arg = arg.1 ∧ r.ty = arg.2 := by
  induction args generalizing j i n seen with
  | nil => cases hi
  | cons arg' args ih =>
    cases i with
    | zero =>
      obtain rfl := Option.some.inj hi
      rw [Nat.add_zero] at hname
      simp only [contextArgsFrom, hname, if_neg hseen]
      exact ⟨_, mem_cons_self, rfl, rfl, rfl⟩
    | succ i =>
      have hrest : ∀ seen' n', a ∉ seen' →
          ∃ r ∈ s.contextArgsFrom args (j + 1) seen' n', r.name = a ∧ r.arg = arg.1 ∧
            r.ty = arg.2 := by
        intro seen' n' hseen'
        refine ih hi (by rwa [Nat.add_right_comm, Nat.add_assoc]) hseen' fun k hk => ?_
        rw [Nat.add_right_comm, Nat.add_assoc]
        exact hfirst (k + 1) (Nat.succ_lt_succ hk)
      rcases contextArgsFrom_cons arg' args j seen n with ⟨-, heq⟩ | ⟨b, hj, -, heq⟩ <;> rw [heq]
      · exact hrest seen n hseen
      · have hb : b ≠ a := fun h => hfirst 0 (Nat.succ_pos i) (h ▸ hj)
        obtain ⟨r, hr, hspec⟩ := hrest (b :: seen) (n + 2) (by simp [Ne.symm hb, hseen])
        exact ⟨r, mem_cons_of_mem _ hr, hspec⟩

theorem mem_contextArgs (h : r ∈ s.contextArgs) :
    s.ctx < r.ref ∧ r.load = r.ref + 1 ∧ r.load < s.firstFree ∧
      ∃ i, s.func.args[i]? = some (r.arg, r.ty) ∧ s.argNames i = some r.name := by
  obtain ⟨-, ⟨k, hk, href⟩, hload, i, hi, hname⟩ := mem_contextArgsFrom h
  rw [firstFree]
  exact ⟨by lia, hload, by lia, i, hi, by rwa [Nat.zero_add] at hname⟩

/-- References and loaded values alternate. -/
theorem load_ne_ref {r' : ContextArg} (h : r ∈ s.contextArgs) (h' : r' ∈ s.contextArgs) :
    r.load ≠ r'.ref := by
  obtain ⟨-, ⟨k, -, href⟩, hload, -⟩ := mem_contextArgsFrom h
  obtain ⟨-, ⟨k', -, href'⟩, -⟩ := mem_contextArgsFrom h'
  lia

theorem contextArgs_pairwise : s.contextArgs.Pairwise fun r r' =>
    r.name ≠ r'.name ∧ r.load < r'.ref := contextArgsFrom_pairwise _ _ _ _

theorem subst_eq (v : Value) : v ∉ s.contextArgs.map ContextArg.arg ∧ s.subst v = v ∨
      ∃ r ∈ s.contextArgs, r.arg = v ∧ s.subst v = r.load := by
  rw [subst]
  cases hfind : s.contextArgs.find? fun r => r.arg = v with
  | none =>
    refine Or.inl ⟨fun hmem => ?_, rfl⟩
    obtain ⟨r, hr, harg⟩ := mem_map.mp hmem
    exact find?_eq_none.mp hfind r hr (decide_eq_true harg)
  | some r =>
    exact Or.inr ⟨r, mem_of_find?_eq_some hfind, by simpa using find?_some hfind, rfl⟩

theorem subst_of_not_mem (h : v ∉ s.contextArgs.map ContextArg.arg) : s.subst v = v := by
  obtain ⟨-, heq⟩ | ⟨r, hr, rfl, -⟩ := subst_eq (s := s) v
  · exact heq
  · exact absurd (mem_map_of_mem hr) h

/-- A value that is not new is replaced by itself or by a new value. -/
theorem subst_ne {u : Value} (hu : u ≤ s.ctx) (hne : v ≠ u) : s.subst v ≠ u := by
  rcases subst_eq (s := s) v with ⟨-, heq⟩ | ⟨r, hr, -, heq⟩
  · rwa [heq]
  · obtain ⟨href, hload, -⟩ := mem_contextArgs hr
    lia

theorem subst_lt_firstFree (h : v < s.ctx) : s.subst v < s.firstFree := by
  rcases subst_eq (s := s) v with ⟨-, heq⟩ | ⟨r, hr, -, heq⟩
  · have : s.ctx < s.firstFree := Nat.lt_of_lt_of_le (Nat.lt_succ_self _) (Nat.le_add_right _ _)
    lia
  · obtain ⟨-, -, hlt, -⟩ := mem_contextArgs hr
    exact heq ▸ hlt

/-- With distinct names exactly the named arguments are removed. -/
theorem mem_map_arg_iff (hdist : Distinct s.func.args.length s.argNames)
    (hnd : (s.func.args.map Prod.fst).Nodup) {i : Nat} (hi : s.func.args[i]? = some arg) :
    arg.1 ∈ s.contextArgs.map ContextArg.arg ↔ (s.argNames i).isSome := by
  have hlt := (List.getElem?_eq_some_iff.mp hi).1
  constructor
  · intro h
    obtain ⟨r, hr, harg⟩ := mem_map.mp h
    obtain ⟨-, -, -, i', hi', hname⟩ := mem_contextArgs hr
    have hmap : (s.func.args.map Prod.fst)[i]? = (s.func.args.map Prod.fst)[i']? := by
      rw [getElem?_map, getElem?_map, hi, hi', Option.map_some, Option.map_some, harg]
    obtain rfl := (getElem?_inj (by simpa using hlt) hnd).mp hmap
    rw [hname]
    rfl
  · intro h
    obtain ⟨a, ha⟩ := Option.isSome_iff_exists.mp h
    have hfirst : ∀ k < i, s.argNames (0 + k) ≠ some a := by
      intro k hk hka
      rw [Nat.zero_add] at hka
      exact absurd (hdist k (hk.trans hlt) i hlt a hka ha) hk.ne
    obtain ⟨r, hr, -, harg, -⟩ := exists_contextArgFrom (j := 0) (n := s.ctx + 1) hi
      (by rwa [Nat.zero_add]) not_mem_nil hfirst
    exact mem_map.mpr ⟨r, hr, harg⟩

end NamedStage

section Unnamed

variable {α β : Type} {names : Names}
variable {j : Nat} {Val : Type}

theorem filter_eq_unnamed {p : α → Bool} {xs : List α}
    (h : ∀ i x, xs[i]? = some x → (p x = false ↔ (names (j + i)).isSome)) :
    xs.filter p = unnamed names j xs := by
  induction xs generalizing j with
  | nil => rfl
  | cons x xs ih =>
    have hx := h 0 x rfl
    have hrest : xs.filter p = unnamed names (j + 1) xs := by
      refine ih fun i y hy => ?_
      rw [Nat.add_right_comm, Nat.add_assoc]
      exact h (i + 1) y hy
    rw [unnamed]
    split_ifs with hname
    · rw [filter_cons_of_neg (by simp [hx.mpr hname]), hrest]
    · rw [filter_cons_of_pos (by simpa using fun hp => hname (hx.mp hp)), hrest]

theorem map_unnamed (g : α → β) (j : Nat) (xs : List α) :
    (unnamed names j xs).map g = unnamed names j (xs.map g) := by
  induction xs generalizing j with
  | nil => rfl
  | cons x xs ih =>
    rw [map_cons, unnamed, unnamed]
    split_ifs
    · exact ih (j + 1)
    · rw [map_cons, ih]

theorem unnamed_sublist (j : Nat) (xs : List α) : (unnamed names j xs).Sublist xs := by
  induction xs generalizing j with
  | nil => exact .slnil
  | cons x xs ih =>
    rw [unnamed]
    split_ifs
    · exact (ih (j + 1)).cons x
    · exact (ih (j + 1)).cons_cons x

theorem setResults_cons [Inhabited Val] (r : Value) (rs : List Value) (o : Val) (outs : List Val)
    (env : Value → Val) (v : Value) :
    setResults (r :: rs) (o :: outs) env v = if v = r then o else setResults rs outs env v := by
  by_cases hv : v = r
  · subst hv
    simp [setResults]
  · simp [setResults, hv, idxOf_cons_ne _ (Ne.symm hv)]

/-- A parameter that stays gets the operand that stays at its place. -/
theorem setResults_unnamed [Inhabited Val] {vs : List Value} {outs : List Val} {env : Value → Val}
    {v : Value} (hlen : vs.length = outs.length) (hnd : vs.Nodup) (hv : v ∈ unnamed names j vs) :
    setResults (unnamed names j vs) (unnamed names j outs) env v = setResults vs outs env v := by
  induction vs generalizing outs j with
  | nil => cases hv
  | cons u vs ih =>
    obtain _ | ⟨o, outs⟩ := outs
    · cases hlen
    obtain ⟨hu, hnd⟩ := nodup_cons.mp hnd
    have hlen : vs.length = outs.length := Nat.succ.inj hlen
    rw [setResults_cons]
    by_cases hname : (names j).isSome
    · rw [unnamed, if_pos hname] at hv
      have hne : v ≠ u := fun h => hu (h ▸ (unnamed_sublist _ _).subset hv)
      rw [unnamed, unnamed, if_pos hname, if_pos hname, if_neg hne, ih hlen hnd hv]
    · rw [unnamed, if_neg hname] at hv
      rw [unnamed, unnamed, if_neg hname, if_neg hname, setResults_cons]
      split_ifs with hvu
      · rfl
      · exact ih hlen hnd ((mem_cons.mp hv).resolve_left hvu)

end Unnamed

namespace NamedStage

variable {s : NamedStage}

theorem keptArgs_eq (hdist : Distinct s.func.args.length s.argNames)
    (hnd : (s.func.args.map Prod.fst).Nodup) :
    (s.func.args.filter fun a => a.1 ∉ s.contextArgs.map ContextArg.arg) =
      unnamed s.argNames 0 s.func.args := by
  refine filter_eq_unnamed fun i x hi => ?_
  rw [Nat.zero_add, ← mem_map_arg_iff hdist hnd hi, decide_eq_false_iff_not, not_not]

/-! ## The code of a stage -/

/-- Instructions that are rewritten one by one. -/
inductive Expands (s : NamedStage) : List Instr → List Instr → Prop
  | nil : Expands s [] []
  | op {n : Value} {o : Operation} {xs ys : List Instr} (hn : s.firstFree ≤ n)
      (h : Expands s xs ys) : Expands s (.op o :: xs) ((s.rewriteOp n o).map .op ++ ys)
  | other {x : Instr} {xs ys : List Instr} (hx : ∀ o, x ≠ .op o) (h : Expands s xs ys) :
      Expands s (x :: xs) (x.rename s.subst :: ys)

theorem Expands.append {xs ys xs' ys' : List Instr} (h : Expands s xs ys)
    (h' : Expands s xs' ys') : Expands s (xs ++ xs') (ys ++ ys') := by
  induction h with
  | nil => exact h'
  | op hn _ ih =>
    rw [append_assoc]
    exact .op hn ih
  | other hx _ ih => exact .other hx ih

/-- Where an operation stands, what it is rewritten to stands. -/
theorem Expands.split {pre post zs : List Instr} {o : Operation}
    (h : Expands s (pre ++ .op o :: post) zs) :
    ∃ n ys ys', s.firstFree ≤ n ∧ zs = ys ++ ((s.rewriteOp n o).map .op ++ ys') ∧
      Expands s pre ys ∧ Expands s post ys' := by
  induction pre generalizing zs with
  | nil =>
    cases h with
    | op hn h => exact ⟨_, [], _, hn, rfl, .nil, h⟩
    | other hx => exact absurd rfl (hx o)
  | cons x pre ih =>
    cases h with
    | op hn h =>
      obtain ⟨n, ys, ys', hn', rfl, hpre, hpost⟩ := ih h
      exact ⟨n, _, ys', hn', (append_assoc _ _ _).symm, .op hn hpre, hpost⟩
    | other hx h =>
      obtain ⟨n, ys, ys', hn', rfl, hpre, hpost⟩ := ih h
      exact ⟨n, _, ys', hn', rfl, .other hx hpre, hpost⟩

variable {n : Value} {w : List FuncOp.Leg}

theorem expands_rewriteOps (hn : s.firstFree ≤ n) (ops : List Operation) :
    Expands s (ops.map .op) ((s.rewriteOps n ops).map .op) := by
  induction ops generalizing n with
  | nil => exact .nil
  | cons o ops ih =>
    rw [rewriteOps, map_append]
    exact .op hn (ih (hn.trans (Nat.le_add_right _ _)))

theorem expands_rename {xs : List Instr} (h : ∀ o, .op o ∉ xs) :
    Expands s xs (xs.map (Instr.rename s.subst)) := by
  induction xs with
  | nil => exact .nil
  | cons x xs ih =>
    refine .other (fun o ho => h o (ho ▸ mem_cons_self)) (ih fun o ho => ?_)
    exact h o (mem_cons_of_mem _ ho)

theorem getElem?_rewriteBlocks (blks : List Block) (d : Nat) :
    ∃ n', n ≤ n' ∧ (s.rewriteBlocks n blks)[d]? = (blks[d]?).map fun blk =>
      { blk with ops := s.rewriteOps n' blk.ops, term := blk.term.rename s.subst } := by
  induction blks generalizing n d with
  | nil => exact ⟨n, le_rfl, rfl⟩
  | cons blk blks ih =>
    cases d with
    | zero => exact ⟨n, le_rfl, rfl⟩
    | succ d =>
      obtain ⟨n', hn', heq⟩ := ih (n := n + (blk.ops.map fun o => o.operands.length).sum) d
      exact ⟨n', (Nat.le_add_right _ _).trans hn', heq⟩

theorem getElem?_restoreContext (d : Nat) :
    ∃ n, s.firstFree ≤ n ∧ s.restoreContext.blocks[d]? = (s.func.blocks[d]?).map fun blk =>
      { blk with
        args := if d = 0 then s.newArgs else blk.args
        ops := (if d = 0 then s.prelude else []) ++ s.rewriteOps n blk.ops
        term := blk.term.rename s.subst } := by
  obtain ⟨n, hn, heq⟩ := getElem?_rewriteBlocks (s := s) (n := s.firstFree) s.func.blocks d
  refine ⟨n, hn, ?_⟩
  rw [restoreContext, getElem?_modifyHead, heq]
  cases s.func.blocks[d]? with
  | none => split_ifs <;> rfl
  | some blk => split_ifs <;> rfl

theorem termOf_restoreContext (d : Nat) :
    s.restoreContext.termOf d = (s.func.termOf d).rename s.subst := by
  obtain ⟨n, -, heq⟩ := getElem?_restoreContext (s := s) d
  rw [termOf, termOf, heq]
  cases s.func.blocks[d]? <;> rfl

theorem argsOf_restoreContext_of_ne {d : Nat} (hd : d ≠ 0) :
    s.restoreContext.argsOf d = s.func.argsOf d := by
  obtain ⟨n, -, heq⟩ := getElem?_restoreContext (s := s) d
  rw [argsOf, argsOf, heq]
  cases s.func.blocks[d]? with
  | none => rfl
  | some blk => simp [hd]

theorem argsOf_restoreContext_zero (hblocks : s.func.blocks ≠ []) :
    s.restoreContext.argsOf 0 = s.newArgs.map Prod.fst := by
  obtain ⟨n, -, heq⟩ := getElem?_restoreContext (s := s) 0
  obtain ⟨blk, blks, hblk⟩ := exists_cons_of_ne_nil hblocks
  rw [argsOf, heq, hblk]
  rfl

theorem edges_restoreContext (hent : s.func.predecessors 0 = []) (b : Nat) :
    s.restoreContext.edges b =
      (s.func.edges b).map fun e => (e.1.map (Instr.rename s.subst), e.2) := by
  have hne : ∀ d ∈ (s.func.termOf b).successors, d ≠ 0 := by
    rintro d hd rfl
    exact predecessors_eq_nil_iff.mp hent b hd
  rw [edges, edges, termOf_restoreContext]
  cases hterm : s.func.termOf b with
  | terminate => rfl
  | br dest args =>
    rw [hterm] at hne
    simp [Terminator.rename, Instr.rename, argsOf_restoreContext_of_ne (hne dest (by
      simp [Terminator.successors]))]
  | condBr cond trueDest trueArgs falseDest falseArgs =>
    rw [hterm] at hne
    simp [Terminator.rename, Instr.rename,
      argsOf_restoreContext_of_ne (hne trueDest (by simp [Terminator.successors])),
      argsOf_restoreContext_of_ne (hne falseDest (by simp [Terminator.successors]))]

theorem walk_restoreContext (hent : s.func.predecessors 0 = []) {b : Nat} (h : s.func.Walk b w) :
    s.restoreContext.Walk b (w.map (renameLeg s.subst)) := by
  induction h with
  | stop hterm => exact .stop (by rw [termOf_restoreContext, hterm]; rfl)
  | go hedge _ ih =>
    refine .go ?_ ih
    rw [edges_restoreContext hent]
    exact mem_map_of_mem hedge

theorem expands_opsOf (d : Nat) : ∃ ys, (s.restoreContext.opsOf d).map Instr.op =
        (if d = 0 ∧ s.func.blocks ≠ [] then s.prelude.map .op else []) ++ ys ∧
      Expands s ((s.func.opsOf d).map .op) ys := by
  obtain ⟨n, hn, heq⟩ := getElem?_restoreContext (s := s) d
  rw [opsOf, opsOf, heq]
  cases hblk : s.func.blocks[d]? with
  | none =>
    have hemp : ¬ (d = 0 ∧ s.func.blocks ≠ []) := by
      rintro ⟨rfl, hne⟩
      obtain ⟨blk, blks, hblks⟩ := exists_cons_of_ne_nil hne
      rw [hblks] at hblk
      cases hblk
    exact ⟨[], by rw [if_neg hemp]; rfl, .nil⟩
  | some blk =>
    have hne : s.func.blocks ≠ [] := fun h => by simp [h] at hblk
    refine ⟨_, ?_, expands_rewriteOps hn blk.ops⟩
    by_cases hd : d = 0 <;> simp [hd, hne]

/-- The code of a walk is rewritten, after what is inserted at its start. -/
theorem expands_code (hf : s.func.SsaForm) (hblocks : s.func.blocks ≠ []) (hw : s.func.Walk 0 w) :
    ∃ ys, s.restoreContext.code (w.map (renameLeg s.subst)) = s.prelude.map .op ++ ys ∧
      Expands s (s.func.code w) ys := by
  have hlegs : ∀ w : List FuncOp.Leg, (∀ leg ∈ w, ∀ o, .op o ∉ leg.2) → 0 ∉ w.map Prod.fst →
      Expands s (s.func.code w) (s.restoreContext.code (w.map (renameLeg s.subst))) := by
    intro w hops hzero
    induction w with
    | nil => exact .nil
    | cons leg w ih =>
      rw [map_cons, mem_cons, not_or] at hzero
      obtain ⟨ys, hys, hexp⟩ := expands_opsOf (s := s) leg.1
      rw [if_neg fun h => hzero.1 h.1.symm, nil_append] at hys
      refine .append (.append ?_ (expands_rename (hops leg mem_cons_self)))
        (ih (fun l hl => hops l (mem_cons_of_mem _ hl)) hzero.2)
      rw [renameLeg, hys]
      exact hexp
  have hops : ∀ leg ∈ w, ∀ o, .op o ∉ leg.2 := fun _ hleg => op_not_mem_leg hw hleg
  have hnd := hf.acyclic.walk_nodup hw
  obtain ⟨instrs, rest, rfl⟩ := hw.head
  obtain ⟨ys, hys, hexp⟩ := expands_opsOf (s := s) 0
  rw [if_pos ⟨rfl, hblocks⟩] at hys
  refine ⟨ys ++ instrs.map (Instr.rename s.subst) ++
    s.restoreContext.code (rest.map (renameLeg s.subst)), ?_, ?_⟩
  · rw [map_cons, code_cons, renameLeg, hys]
    simp only [append_assoc]
  · rw [code_cons]
    refine .append (.append hexp (expands_rename (hops _ mem_cons_self)))
      (hlegs rest (fun l hl => hops l (mem_cons_of_mem _ hl)) ?_)
    exact (nodup_cons.mp hnd).1

end NamedStage

end Alkali
