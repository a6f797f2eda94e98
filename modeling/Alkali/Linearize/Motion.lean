import Alkali.Linearize.Cfg

/-!
# Moving an operation over instructions

An operation moves to the front of a list of instructions if it does not meet
their footprints, touches none of the cells they write, and is not one of two
observed effects. What a list of instructions does depends on the values it
uses.
-/

namespace Alkali

open List Operation

/-- Exchanging the two operations can be noticed. -/
def OpKind.conflicts (obs : OpKind → Bool) (k k' : OpKind) : Bool :=
  k.reads.isSome && k.reads == k'.writes || k.writes.isSome && k.writes == k'.reads ||
    k.writes.isSome && k.writes == k'.writes || obs k && obs k'

/-- Every instruction uses values of `A` or results of earlier instructions. -/
def InstrsFrom : List Value → List Instr → Prop
  | _, [] => True
  | A, x :: xs => (∀ v ∈ x.uses, v ∈ A) ∧ InstrsFrom (A ++ x.defs) xs

instance decidableInstrsFrom : ∀ A xs, Decidable (InstrsFrom A xs)
  | _, [] => .isTrue trivial
  | A, x :: xs =>
    have := decidableInstrsFrom (A ++ x.defs) xs
    inferInstanceAs (Decidable (_ ∧ _))

variable {xs : List Instr} {A : List Value} {x : Instr} {v : Value} {o : Operation}

theorem InstrsFrom.mono {B : List Value} (h : InstrsFrom A xs) (hAB : A ⊆ B) : InstrsFrom B xs := by
  induction xs generalizing A B with
  | nil => trivial
  | cons x xs ih =>
    refine ⟨fun v hv => hAB (h.1 v hv), ih h.2 ?_⟩
    exact append_subset.mpr
      ⟨fun v hv => mem_append_left _ (hAB hv), subset_append_right _ _⟩

theorem instrsFrom_append {ys : List Instr} : InstrsFrom A (xs ++ ys) ↔
      InstrsFrom A xs ∧ InstrsFrom (A ++ xs.flatMap Instr.defs) ys := by
  induction xs generalizing A with
  | nil => simp [InstrsFrom]
  | cons x xs ih => simp [InstrsFrom, ih, and_assoc]

theorem InstrsFrom.mem (h : InstrsFrom A xs) (hx : x ∈ xs) (hv : v ∈ x.uses) :
    v ∈ A ∨ ∃ d ∈ xs, v ∈ d.defs := by
  induction xs generalizing A with
  | nil => cases hx
  | cons y xs ih =>
    rcases mem_cons.mp hx with rfl | hx
    · exact Or.inl (h.1 v hv)
    · rcases ih h.2 hx with hA | ⟨d, hd, hvd⟩
      · rcases mem_append.mp hA with hA | hy
        · exact Or.inl hA
        · exact Or.inr ⟨y, by simp, hy⟩
      · exact Or.inr ⟨d, by simp [hd], hvd⟩

theorem Instr.defs_subset_binds (x : Instr) : x.defs ⊆ x.binds := by
  intro v hv
  cases x with
  | op o =>
    cases o with
    | plain op => exact hv
    | guard => cases hv
  | bind dests srcs => exact hv
  | test cond want => cases hv

theorem append_defs_subset (A : List Value) (xs : List Instr) :
    A ++ xs.flatMap Instr.defs ⊆ A ++ xs.flatMap Instr.binds := by
  intro v hv
  rcases mem_append.mp hv with hA | hd
  · exact mem_append_left _ hA
  · obtain ⟨x, hx, hvx⟩ := mem_flatMap.mp hd
    exact mem_append_right _ (mem_flatMap.mpr ⟨x, hx, x.defs_subset_binds hvx⟩)

/-- What is used is available at the start or bound by one of the instructions. -/
theorem InstrsFrom.mem_binds (h : InstrsFrom A xs) (hx : x ∈ xs) (hv : v ∈ x.uses) :
    v ∈ A ++ xs.flatMap Instr.binds := by
  refine append_defs_subset A xs ?_
  rcases h.mem hx hv with hA | ⟨d, hd, hvd⟩
  · exact mem_append_left _ hA
  · exact mem_append_right _ (mem_flatMap.mpr ⟨d, hd, hvd⟩)

variable {Val : Type} [Inhabited Val] [DecidableEq Val] {I : Interp Val} {obs : OpKind → Bool}

/-- The operation can be moved over the instruction. -/
structure Instr.Independent (obs : OpKind → Bool) (o : Operation) (x : Instr) : Prop where
  binds_uses : ∀ v ∈ o.binds, v ∉ x.uses
  uses_binds : ∀ v ∈ x.binds, v ∉ o.uses
  binds_binds : ∀ v ∈ o.binds, v ∉ x.binds
  cells : ∀ p, x = .op p → o.inner.kind.conflicts obs p.inner.kind = false

theorem Instr.Independent.operation {p : Operation} (h : Instr.Independent obs o (.op p)) :
    o.Independent p := by
  have hcells := h.cells p rfl
  simp only [OpKind.conflicts, Bool.or_eq_false_iff, Bool.and_eq_false_iff] at hcells
  obtain ⟨⟨⟨hrw, hwr⟩, hww⟩, _⟩ := hcells
  refine ⟨h.binds_uses, h.uses_binds, h.binds_binds, ?_, ?_, ?_⟩
  · intro c hc hc'
    simp [hc, hc'] at hrw
  · intro c hc hc'
    simp [hc, hc'] at hwr
  · intro c hc hc'
    simp [hc, hc'] at hww

/-- Transferring block arguments commutes with an operation that has nothing to
do with them. -/
theorem Operation.step_bind {dests srcs : List Value} (hsrcs : ∀ v ∈ o.binds, v ∉ srcs)
    (huses : ∀ v ∈ dests, v ∉ o.uses) (hdests : ∀ v ∈ o.binds, v ∉ dests) (s : State Val) :
    (o.step I obs s).bind dests srcs = o.step I obs (s.bind dests srcs) := by
  rcases step_alike I obs (s := s) (t := s.bind dests srcs)
    (fun v hv => setResults_of_not_mem fun hd => huses v hd hv) (fun _ _ => rfl)
    with ⟨-, hs, ht⟩ | ⟨args, outs, hs, ht⟩
  · rw [hs, ht]
  · rw [hs, ht]
    refine State.ext ?_ rfl rfl
    have hargs : srcs.map (s.apply I obs o.inner args outs).env = srcs.map s.env :=
      map_congr_left fun v hv => setResults_of_not_mem fun hb => hsrcs v hb hv
    simp only [State.bind, hargs]
    exact (setResults_comm hdests).symm

/-- The operation and the instruction can be exchanged. -/
theorem Instr.Independent.step_comm (h : x.Independent obs o) (s : State Val) :
    x.step I obs (o.step I obs s) = (x.step I obs s).map (o.step I obs) := by
  cases x with
  | op p =>
    have hobs : obs o.inner.kind = false ∨ obs p.inner.kind = false := by
      have hcells := h.cells p rfl
      simp only [OpKind.conflicts, Bool.or_eq_false_iff, Bool.and_eq_false_iff] at hcells
      exact hcells.2
    exact congrArg some (h.operation.comm hobs s)
  | bind dests srcs =>
    exact congrArg some (step_bind h.binds_uses h.uses_binds h.binds_binds s)
  | test cond want =>
    have hcond : (o.step I obs s).env cond = s.env cond :=
      step_env_of_not_mem fun hb => h.binds_uses cond hb (by simp [uses])
    simp only [step, hcond]
    split <;> rfl

/-- The operation moves over a list of instructions. -/
theorem execInstrs_move (h : ∀ x ∈ xs, Instr.Independent obs o x) (s : State Val) :
    execInstrs I obs xs (o.step I obs s) = (execInstrs I obs xs s).map (o.step I obs) := by
  induction xs generalizing s with
  | nil => rfl
  | cons x xs ih =>
    rw [execInstrs_cons, execInstrs_cons, (h x (by simp)).step_comm]
    cases x.step I obs s with
    | none => rfl
    | some t => exact ih (fun y hy => h y (by simp [hy])) t

theorem Instr.step_env_of_not_mem {s t : State Val} (hv : v ∉ x.binds)
    (h : x.step I obs s = some t) : t.env v = s.env v := by
  cases x with
  | op o =>
    cases h
    exact step_env_of_not_mem hv
  | bind dests srcs =>
    cases h
    exact setResults_of_not_mem hv
  | test cond want =>
    simp only [step] at h
    split at h
    · cases h
      rfl
    · cases h

/-- A test that fails now fails later if its condition does not change. -/
theorem execInstrs_eq_none {cond : Value} {want : Bool} (htest : Instr.test cond want ∈ xs)
    (hbinds : ∀ x ∈ xs, cond ∉ x.binds) {s : State Val} (hs : I.truth (s.env cond) ≠ want) :
    execInstrs I obs xs s = none := by
  induction xs generalizing s with
  | nil => cases htest
  | cons x xs ih =>
    rw [execInstrs_cons]
    cases hstep : x.step I obs s with
    | none => rfl
    | some t =>
      rcases mem_cons.mp htest with rfl | htest
      · simp [Instr.step, hs] at hstep
      · refine ih htest (fun y hy => hbinds y (by simp [hy])) ?_
        rwa [Instr.step_env_of_not_mem (hbinds x (by simp)) hstep]

/-- The effects and the final cells of an execution. -/
def outcome (r : Option (State Val)) : Option (List (Effect Val) × (Cell → Val → Val)) :=
  r.map fun s => (s.trace, s.cells)

/-- Instructions do the same from states that agree on what they use. -/
theorem outcome_execInstrs_congr {s t : State Val} (hxs : InstrsFrom A xs)
    (h : AgreeOn A (fun _ => True) s t) (htrace : s.trace = t.trace) :
    outcome (execInstrs I obs xs s) = outcome (execInstrs I obs xs t) := by
  induction xs generalizing A s t with
  | nil =>
    have hcells : s.cells = t.cells := funext fun c => h.cells c trivial
    simp [outcome, htrace, hcells]
  | cons x xs ih =>
    obtain ⟨huses, hrest⟩ := hxs
    cases x with
    | op o =>
      obtain ⟨hagree, hrec⟩ := step_agree I obs h huses fun _ _ => trivial
      refine ih hrest hagree ?_
      rw [step_trace, step_trace, htrace, hrec]
    | bind dests srcs =>
      have hargs : srcs.map s.env = srcs.map t.env :=
        map_congr_left fun v hv => h.env v (huses v hv)
      refine ih hrest ⟨?_, h.cells⟩ htrace
      intro v hv
      simp only [State.bind, hargs]
      by_cases hd : v ∈ dests
      · exact setResults_of_mem hd
      · rw [setResults_of_not_mem hd, setResults_of_not_mem hd]
        exact h.env v ((mem_append.mp hv).resolve_right hd)
    | test cond want =>
      have hcond : s.env cond = t.env cond := h.env cond (huses cond (by simp [Instr.uses]))
      simp only [execInstrs_cons, Instr.step, hcond]
      split
      · exact ih hrest ⟨fun v hv => h.env v (by simpa [Instr.defs] using hv), h.cells⟩ htrace
      · rfl

end Alkali
