import Alkali.Atomic.Pattern
import Alkali.Linearize.Rename
import Alkali.Linearize.Walks

/-!
# Replaced operations on walks

Instructions do the same from states that differ in values they do not use. The
code of a walk through a function with replaced operations is the replaced code,
and its instructions use what has users in the function.
-/

namespace Alkali

open List Operation Fallible

section AgreeExcept

variable {Val : Type} [Inhabited Val] [DecidableEq Val] {I : Interp Val} {obs : OpKind → Bool}
  {rs : List Value} {s t : State Val}

/-- Two states that differ in the given values at most. -/
structure AgreeExcept (rs : List Value) (s t : State Val) : Prop where
  env : ∀ v, v ∉ rs → s.env v = t.env v
  cells : s.cells = t.cells
  trace : s.trace = t.trace

omit [Inhabited Val] [DecidableEq Val] in
theorem AgreeExcept.map (h : AgreeExcept rs s t) {vs : List Value} (hvs : ∀ v ∈ rs, v ∉ vs) :
    vs.map s.env = vs.map t.env :=
  map_congr_left fun v hv => h.env v fun hr => hvs v hr hv

variable {o : Operation}

section

variable (h : AgreeExcept rs s t)
include h

omit [Inhabited Val] [DecidableEq Val] in
theorem AgreeExcept.enabled (ho : ∀ v ∈ rs, v ∉ o.operands) :
    o.enabled I s.env = o.enabled I t.env :=
  enabled_congr fun v hv => h.env v fun hr => ho v hr hv

/-- An instruction that uses none of the values does the same, or fails in both
states. -/
theorem AgreeExcept.instr {x : Instr} (hx : ∀ v ∈ rs, v ∉ x.uses) :
    Option.Rel (AgreeExcept rs) (x.step I obs s) (x.step I obs t) := by
  have hid : x.rename id = x := Instr.rename_eq_self fun _ _ => rfl
  rw [← congrArg (fun y => Instr.step I obs y t) hid]
  exact Instr.step_rename h
    (fun v hv => (h.env v fun hr => hx v hr hv).symm) (fun _ _ c _ => congrFun h.cells.symm c)
    fun outs e _ hw => ⟨fun v hv => (setResults_rename (σ := id) (h.env v hv).symm
      (fun _ _ => Iff.rfl) outs).symm, funext fun c => (hw c (congrFun h.cells.symm c)).symm,
      congrArg (· ++ e) h.trace⟩

/-- An operation that uses none of the values does the same. -/
theorem AgreeExcept.operation (ho : ∀ v ∈ rs, v ∉ o.uses) :
    AgreeExcept rs (o.step I obs s) (o.step I obs t) := by
  cases h.instr (I := I) (x := .op o) ho with
  | some h' => exact h'

theorem AgreeExcept.instrs {xs : List Instr} (hxs : ∀ x ∈ xs, ∀ v ∈ rs, v ∉ x.uses) :
    Option.Rel (AgreeExcept rs) (execInstrs I obs xs s) (execInstrs I obs xs t) := by
  induction xs generalizing s t with
  | nil => exact .some h
  | cons x xs ih =>
    exact rel_bind (h.instr (hxs x (by simp))) fun s' t' _ _ hnext =>
      ih hnext fun y hy => hxs y (by simp [hy])

/-- An operation without effects whose results are among the values can be left
out. -/
theorem AgreeExcept.erase (hpure : o.inner.kind.isPure)
    (hobs : obs o.inner.kind = false) (hrs : o.binds ⊆ rs) : AgreeExcept rs (o.step I obs s) t := by
  refine ⟨?_, ?_, ?_⟩
  · intro v hv
    rw [step_env_of_not_mem fun hb => hv (hrs hb)]
    exact h.env v hv
  · funext c
    rw [step_cells_of_ne (by simp [OpKind.writes_of_isPure hpure]), h.cells]
  · rw [step_trace, h.trace]
    simp [records, PlainOp.recorded, hobs]

end

end AgreeExcept

/-- Change or erase an instruction that is an operation. -/
def Instr.filterMapOp (g : Operation → Option Operation) : Instr → Option Instr
  | op o => (g o).map op
  | x => some x

namespace FuncOp

variable {f : FuncOp}

section Code

variable {g : Operation → Option Operation} {b : Nat} {w : List Leg}

theorem opsOf_filterMapOps (c : Nat) : (f.filterMapOps g).opsOf c = (f.opsOf c).filterMap g := by
  cases hblk : f.blocks[c]? <;> simp [opsOf, filterMapOps, hblk]

theorem argsOf_filterMapOps (c : Nat) : (f.filterMapOps g).argsOf c = f.argsOf c := by
  simp [argsOf, filterMapOps, Function.comp_def]

theorem termOf_filterMapOps (c : Nat) : (f.filterMapOps g).termOf c = f.termOf c := by
  simp [termOf, filterMapOps, Function.comp_def]

theorem edges_filterMapOps (c : Nat) : (f.filterMapOps g).edges c = f.edges c := by
  simp [edges, termOf_filterMapOps, argsOf_filterMapOps]

theorem walk_filterMapOps : (f.filterMapOps g).Walk b w ↔ f.Walk b w := by
  constructor
  · intro h
    induction h with
    | stop hterm => exact .stop (by rwa [termOf_filterMapOps] at hterm)
    | go hedge _ ih => exact .go (by rwa [edges_filterMapOps] at hedge) ih
  · intro h
    induction h with
    | stop hterm => exact .stop (by rwa [termOf_filterMapOps])
    | go hedge _ ih => exact .go (by rwa [edges_filterMapOps]) ih

theorem filterMap_map_op (ops : List Operation) :
    (ops.map Instr.op).filterMap (Instr.filterMapOp g) = (ops.filterMap g).map Instr.op := by
  rw [filterMap_map, map_filterMap]
  rfl

theorem filterMap_of_no_op {instrs : List Instr} (h : ∀ p, .op p ∉ instrs) :
    instrs.filterMap (Instr.filterMapOp g) = instrs := by
  induction instrs with
  | nil => rfl
  | cons x xs ih =>
    have hx : Instr.filterMapOp g x = some x := by
      cases x with
      | op p => exact absurd (mem_cons_self) (h p)
      | bind => rfl
      | test => rfl
    rw [filterMap_cons_some hx, ih fun p hp => h p (mem_cons_of_mem _ hp)]

theorem code_filterMapOps (hw : f.Walk b w) :
    (f.filterMapOps g).code w = (f.code w).filterMap (Instr.filterMapOp g) := by
  have hlegs : ∀ leg ∈ w, ∀ p, .op p ∉ leg.2 := fun leg hleg => op_not_mem_leg hw hleg
  clear hw
  induction w with
  | nil => rfl
  | cons leg w ih =>
    rw [code_cons, code_cons, filterMap_append, filterMap_append, filterMap_map_op,
      filterMap_of_no_op (hlegs leg (by simp)), opsOf_filterMapOps,
      ih fun l hl => hlegs l (by simp [hl])]

end Code

section Unused

variable {b : Nat} {w : List Leg} {x : Instr} {r : Value}

/-- What uses a value is one of its users, or the operation in the guard is. -/
theorem users_of_operation {o : Operation} (ho : o ∈ f.operations) (hr : r ∈ o.uses) :
    o ∈ f.users r ∨ .plain o.inner ∈ f.users r := by
  rcases mem_uses.mp hr with hr | hr
  · exact Or.inl (mem_users.mpr ⟨mem_walk.mpr (Or.inl ho), hr⟩)
  · cases o with
    | plain op => cases hr
    | guard id preds predAttrs body =>
      refine Or.inr (mem_users.mpr ⟨mem_walk.mpr (Or.inr ⟨_, ho, body, ?_, rfl⟩), hr⟩)
      simp [nested]

/-- A value that is not used is not used on a walk. -/
theorem not_mem_uses_of_no_users (hw : f.Walk b w) (hx : x ∈ f.code w) (hr : f.users r = []) :
    r ∉ x.uses := by
  intro hmem
  have hno : ∀ o, o ∉ f.users r := by simp [hr]
  rcases mem_code_cases hw hx with ⟨o, ho, rfl⟩ | ⟨_, hterm⟩
  · exact (users_of_operation ho hmem).elim (hno _) (hno _)
  · obtain ⟨o, ho, _, hv⟩ := hterm r hmem
    exact hno o (mem_users.mpr ⟨mem_walk.mpr (Or.inl ho), hv⟩)

variable {load : PlainOp} {m : AtomicMatch} {table key value : Value}

section

variable (hm : f.IsMatch load m table key value)
include hm

/-- Only the update uses the result of the operation on the loaded value. -/
theorem IsMatch.not_mem_uses (hw : f.Walk b w)
    (hx : x ∈ f.code w) (hstore : ∀ o, x = .op o → o.inner ≠ m.store) : m.result ∉ x.uses := by
  intro hmem
  have honly : ∀ o, o ∈ f.users m.result → o = .plain m.store := by simp [hm.stored]
  rcases mem_code_cases hw hx with ⟨o, ho, rfl⟩ | ⟨_, hterm⟩
  · rcases users_of_operation ho hmem with hu | hu
    · exact hstore o rfl (by rw [honly o hu]; rfl)
    · exact hstore o rfl (by simpa using honly _ hu)
  · obtain ⟨o, ho, hbranch, hv⟩ := hterm m.result hmem
    rw [honly o (mem_users.mpr ⟨mem_walk.mpr (Or.inl ho), hv⟩)] at hbranch
    simp [kind?, hm.store_kind] at hbranch

/-- The atomic update does not use the result. -/
theorem IsMatch.not_mem_atomic (hload : .plain load ∈ f.walk) : m.result ∉ m.atomic.operands := by
  have honly : ∀ op, .plain op ∈ f.walk → m.result ∈ op.operands → op.kind = .update m.table := by
    intro op hop hmem
    have hu := mem_users.mpr ⟨hop, hmem⟩
    rw [hm.stored, mem_singleton, plain.injEq] at hu
    rw [hu, hm.store_kind]
  rw [hm.atomic_operands]
  intro hmem
  by_cases hv : m.result = value
  · have hkind := honly m.user hm.user_mem (hv ▸ hm.value_mem)
    rcases hm.user_kind with h | h <;> simp [h] at hkind
  · have hkind := honly load hload (by rw [hm.load_operands]; simpa [hv] using hmem)
    simp [hm.load_kind] at hkind

/-- The guard of the update does not use the result. -/
theorem IsMatch.not_mem_operands {o : Operation}
    (ho : o ∈ f.operations) (hg : o ≠ .plain m.store) : m.result ∉ o.operands := by
  intro hv
  have hu := mem_users.mpr ⟨mem_walk.mpr (Or.inl ho), hv⟩
  rw [hm.stored, mem_singleton] at hu
  exact hg hu

end

end Unused

end FuncOp

end Alkali
