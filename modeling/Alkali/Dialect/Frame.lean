import Alkali.Dialect.Commute

/-!
# Runs depend on what they read

A list of operations that only uses the values in `A` and its own earlier
results, and only accesses the cells in `C`, does the same from any two states
that agree on `A` and `C`.
-/

namespace Alkali

open List Operation

/-- Every operation uses values of `A` or results of earlier operations. -/
def UsesFrom : List Value → List Operation → Prop
  | _, [] => True
  | A, o :: ops => (∀ v ∈ o.uses, v ∈ A) ∧ UsesFrom (A ++ o.defs) ops

instance decidableUsesFrom : ∀ A ops, Decidable (UsesFrom A ops)
  | _, [] => .isTrue trivial
  | A, o :: ops =>
    have := decidableUsesFrom (A ++ o.defs) ops
    inferInstanceAs (Decidable (_ ∧ _))

variable {ops : List Operation} {A : List Value} {o : Operation} {v : Value} {C : Cell → Prop}

theorem UsesFrom.mono {B : List Value} (h : UsesFrom A ops) (hAB : A ⊆ B) : UsesFrom B ops := by
  induction ops generalizing A B with
  | nil => trivial
  | cons o ops ih =>
    refine ⟨fun v hv => hAB (h.1 v hv), ih h.2 ?_⟩
    exact append_subset.mpr
      ⟨fun v hv => mem_append_left _ (hAB hv), subset_append_right _ _⟩

/-- Any operations use what they use. -/
theorem usesFrom_uses (ops : List Operation) : UsesFrom (ops.flatMap uses) ops := by
  induction ops with
  | nil => trivial
  | cons o ops ih =>
    constructor
    · intro v hv
      exact mem_flatMap.mpr ⟨o, by simp, hv⟩
    · apply ih.mono
      intro v hv
      rw [flatMap_cons, append_assoc]
      exact mem_append_right _ (mem_append_left _ hv)

theorem UsesFrom.mem (h : UsesFrom A ops) (ho : o ∈ ops) (hv : v ∈ o.uses) :
    v ∈ A ∨ ∃ d ∈ ops, v ∈ d.defs := by
  induction ops generalizing A with
  | nil => cases ho
  | cons p ops ih =>
    rcases mem_cons.mp ho with rfl | ho
    · exact Or.inl (h.1 v hv)
    · rcases ih h.2 ho with hA | ⟨d, hd, hvd⟩
      · rcases mem_append.mp hA with hA | hp
        · exact Or.inl hA
        · exact Or.inr ⟨p, by simp, hp⟩
      · exact Or.inr ⟨d, by simp [hd], hvd⟩

/-- Dropping operations keeps the property when what the others use of them is
available otherwise. -/
theorem UsesFrom.filter {p : Operation → Bool} {B : List Value} (h : UsesFrom A ops)
    (hA : ∀ v ∈ A, (∃ o ∈ ops, p o ∧ v ∈ o.uses) → v ∈ B)
    (hdrop : ∀ d ∈ ops, p d = false → ∀ v ∈ d.defs, (∃ o ∈ ops, p o ∧ v ∈ o.uses) → v ∈ B) :
    UsesFrom B (ops.filter p) := by
  induction ops generalizing A B with
  | nil => trivial
  | cons o ops ih =>
    have hlift : ∀ {v}, (∃ q ∈ ops, p q ∧ v ∈ q.uses) → ∃ q ∈ o :: ops, p q ∧ v ∈ q.uses := by
      rintro v ⟨q, hq, hpq, hv⟩
      exact ⟨q, mem_cons_of_mem _ hq, hpq, hv⟩
    cases hp : p o with
    | true =>
      rw [filter_cons_of_pos hp]
      refine ⟨fun v hv => hA v (h.1 v hv) ⟨o, by simp, hp, hv⟩, ih h.2 ?_ ?_⟩
      · intro v hv huse
        rcases mem_append.mp hv with hv | hv
        · exact mem_append_left _ (hA v hv (hlift huse))
        · exact mem_append_right _ hv
      · intro d hd hpd v hv huse
        exact mem_append_left _
          (hdrop d (mem_cons_of_mem _ hd) hpd v hv (hlift huse))
    | false =>
      rw [filter_cons_of_neg (by simp [hp])]
      refine ih h.2 ?_ ?_
      · intro v hv huse
        rcases mem_append.mp hv with hv | hv
        · exact hA v hv (hlift huse)
        · exact hdrop o (by simp) hp v hv (hlift huse)
      · intro d hd hpd v hv huse
        exact hdrop d (mem_cons_of_mem _ hd) hpd v hv (hlift huse)

/-- An operation uses nothing that it or a later operation defines. -/
theorem UsesFrom.pairwise (h : UsesFrom A ops) (hnd : (A ++ ops.flatMap defs).Nodup) :
    ops.Pairwise fun p o => ∀ v ∈ o.defs, v ∉ p.uses := by
  induction ops generalizing A with
  | nil => exact .nil
  | cons o ops ih =>
    rw [flatMap_cons, ← append_assoc] at hnd
    refine pairwise_cons.mpr ⟨?_, ih h.2 hnd⟩
    intro q hq v hv huse
    have hdisj := (nodup_append.mp hnd).2.2
    exact hdisj v (mem_append_left _ (h.1 v huse)) v
      (mem_flatMap.mpr ⟨q, hq, hv⟩) rfl

/-- The operation reads or writes the cell. -/
def Operation.accesses (o : Operation) (c : Cell) : Prop :=
  o.inner.kind.reads = some c ∨ o.inner.kind.writes = some c

/-- No operation of the list accesses a cell outside of `C`. -/
def CellsFrom (C : Cell → Prop) (ops : List Operation) : Prop :=
  ∀ o ∈ ops, ∀ c, o.accesses c → C c

variable {Val : Type} [Inhabited Val] [DecidableEq Val] {I : Interp Val}
  {obs : OpKind → Bool} {s : State Val}

/-- Two states that agree on the values `A` and the cells `C`. -/
structure AgreeOn (A : List Value) (C : Cell → Prop) (s t : State Val) : Prop where
  env : ∀ v ∈ A, s.env v = t.env v
  cells : ∀ c, C c → s.cells c = t.cells c

namespace Operation

/-- What an operation records from a state. -/
def records (I : Interp Val) (obs : OpKind → Bool) (o : Operation) (s : State Val) :
    List (Effect Val) :=
  if o.enabled I s.env then o.inner.recorded obs s.env else []

theorem step_trace (o : Operation) (s : State Val) :
    (o.step I obs s).trace = s.trace ++ o.records I obs s := by
  cases he : o.enabled I s.env with
  | true => rw [step_of_enabled he, PlainOp.step_trace, records, if_pos he]
  | false => rw [step_of_not_enabled he, records, if_neg (by simp [he]), append_nil]

variable (I obs) in
/-- Agreeing states stay so, on the results of the operation too. -/
theorem step_agree {o : Operation} {A : List Value} {C : Cell → Prop} {s t : State Val}
    (h : AgreeOn A C s t) (ho : ∀ v ∈ o.uses, v ∈ A) (hc : ∀ c, o.accesses c → C c) :
    AgreeOn (A ++ o.defs) C (o.step I obs s) (o.step I obs t) ∧
      o.records I obs s = o.records I obs t := by
  have htrace : ∀ u, (o.step I obs u).trace = u.trace ++ o.records I obs u := o.step_trace
  rcases step_alike I obs (fun v hv => (h.env v (ho v hv)).symm)
    (fun c hr => (h.cells c (hc c (Or.inl hr))).symm) with ⟨he, hs, ht⟩ | ⟨args, outs, hs, ht⟩
  · have hdefs : o.defs = [] := by
      cases o with
      | plain op => cases he
      | guard i ps as body => rfl
    have hnone := htrace t
    rw [ht, self_eq_append_right] at hnone
    rw [hs, ht, hdefs, append_nil, hnone, records, if_neg (by simp [he])]
    exact ⟨h, rfl⟩
  · have hrecords := htrace s
    have hrecords' := htrace t
    rw [hs] at hrecords
    rw [ht] at hrecords'
    refine ⟨⟨fun v hv => ?_, fun c hC => ?_⟩, ?_⟩
    · rw [hs, ht]
      by_cases hb : v ∈ o.inner.results.map Prod.fst
      · exact setResults_of_mem hb
      · refine (setResults_of_not_mem hb).trans ((h.env v ?_).trans (setResults_of_not_mem hb).symm)
        refine (mem_append.mp hv).resolve_right fun hd => hb ?_
        cases o with
        | plain op => exact hd
        | guard i ps as body => cases hd
    · rw [hs, ht]
      exact OpKind.write_congr (h.cells c hC)
    · exact (append_cancel_left hrecords).symm.trans (append_cancel_left hrecords')

end Operation

variable (I obs) in
/-- A run from agreeing states ends in agreeing states and records the same. -/
theorem exec_agree {t : State Val} (hops : UsesFrom A ops) (hcells : CellsFrom C ops)
    (h : AgreeOn A C s t) :
    AgreeOn (A ++ ops.flatMap defs) C (exec I obs ops s) (exec I obs ops t) ∧
      ∃ e, (exec I obs ops s).trace = s.trace ++ e ∧ (exec I obs ops t).trace = t.trace ++ e := by
  induction ops generalizing A s t with
  | nil => exact ⟨by simpa using h, [], by simp, by simp⟩
  | cons o ops ih =>
    obtain ⟨hstep, hrec⟩ := step_agree I obs h hops.1
      (hcells o (by simp))
    obtain ⟨hagree, e, hs, ht⟩ := ih hops.2 (fun p hp => hcells p (by simp [hp])) hstep
    refine ⟨?_, o.records I obs s ++ e, ?_, ?_⟩
    · simpa [append_assoc] using hagree
    · rw [exec_cons, hs, step_trace, append_assoc]
    · rw [exec_cons, ht, step_trace, hrec, append_assoc]

/-- Operations that are not observed leave the trace alone. -/
theorem exec_trace_of_quiet (h : ∀ o ∈ ops, obs o.inner.kind = false) :
    (exec I obs ops s).trace = s.trace := by
  induction ops generalizing s with
  | nil => rfl
  | cons o ops ih =>
    rw [exec_cons, ih fun p hp => h p (by simp [hp]), step_trace]
    simp [records, PlainOp.recorded, h o (by simp)]

/-- A run leaves the cells alone that none of its operations accesses. -/
theorem exec_cells_of_not_accessed (hcells : CellsFrom C ops) {c : Cell} (h : ¬ C c) :
    (exec I obs ops s).cells c = s.cells c := by
  induction ops generalizing s with
  | nil => rfl
  | cons o ops ih =>
    rw [exec_cons, ih fun p hp => hcells p (by simp [hp])]
    exact step_cells_of_ne fun hw => h (hcells o (by simp) c (Or.inr hw))

end Alkali
