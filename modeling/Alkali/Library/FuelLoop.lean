import Mathlib.Order.WellFounded

/-!
# Loops with fuel

A step of a loop fails, finishes the loop with a result or goes on in a new state. If
a measure goes down whenever the loop goes on, the loop finishes exactly if no step
fails.
-/

namespace FuelLoop

variable {S A : Type*} (step : S → Option (A ⊕ S))

/-- Run a loop; `none` if a step fails or there is no fuel left. -/
def run : Nat → S → Option A
  | 0, _ => none
  | n + 1, s => (step s).bind (Sum.elim some (run n))

/-- The states that a loop comes to. -/
def Reaches : S → S → Prop := Relation.ReflTransGen fun s t => step s = some (.inr t)

variable {step}
variable {n : Nat} {s t : S} {a : A}

theorem run_succ : run step (n + 1) s = some a ↔
      step s = some (.inl a) ∨ ∃ t, step s = some (.inr t) ∧ run step n t = some a := by
  rw [run]
  rcases step s with - | (b | t) <;> simp

section

variable (h : run step n s = some a)
include h

/-- The result is that of a step in a state that the loop has come to. -/
theorem exists_of_run : ∃ t, Reaches step s t ∧ step t = some (.inl a) := by
  induction n generalizing s with
  | zero => cases h
  | succ n ih =>
    rcases run_succ.mp h with hdone | ⟨t, hstep, hrun⟩
    · exact ⟨s, .refl, hdone⟩
    · obtain ⟨u, hreach, hu⟩ := ih hrun
      exact ⟨u, .head hstep hreach, hu⟩

/-- More fuel does not change the result. -/
theorem run_mono {m : Nat} (hle : n ≤ m) : run step m s = some a := by
  induction n generalizing s m with
  | zero => cases h
  | succ n ih =>
    obtain ⟨m, rfl⟩ := Nat.exists_eq_succ_of_ne_zero (by omega : m ≠ 0)
    rw [run_succ] at h ⊢
    exact h.imp_right fun ⟨t, hstep, hrun⟩ => ⟨t, hstep, ih hrun (by omega)⟩

/-- A loop that finishes does so from every state that it comes to. -/
theorem exists_run_of_reaches (ht : Reaches step s t) : ∃ m, run step m t = some a := by
  induction n generalizing s with
  | zero => cases h
  | succ n ih =>
    rcases ht.cases_head with rfl | ⟨u, hstep, hrest⟩
    · exact ⟨n + 1, h⟩
    · rcases run_succ.mp h with hdone | ⟨u', hstep', hrun⟩
      · cases hdone.symm.trans hstep
      · cases hstep.symm.trans hstep'
        exact ih hrun hrest

/-- No step of a loop that finishes fails. -/
theorem isSome_of_run (ht : Reaches step s t) : (step t).isSome := by
  obtain ⟨m, hm⟩ := exists_run_of_reaches h ht
  cases m with
  | zero => cases hm
  | succ m =>
    rcases run_succ.mp hm with hdone | ⟨u, hstep, -⟩
    · rw [hdone]
      rfl
    · rw [hstep]
      rfl

end

/-- A loop with a measure finishes exactly if no step fails. -/
theorem exists_run_iff {M : Type*} [Preorder M] [WellFoundedLT M] (μ : S → M)
    (hμ : ∀ t u, Reaches step s t → step t = some (.inr u) → μ u < μ t) :
    (∃ n a, run step n s = some a) ↔ ∀ t, Reaches step s t → (step t).isSome := by
  refine ⟨fun ⟨n, a, h⟩ t ht => isSome_of_run h ht, fun hall => ?_⟩
  suffices hrun : ∀ m t, μ t = m → Reaches step s t → ∃ n a, run step n t = some a from
    hrun _ s rfl .refl
  intro m
  induction m using WellFoundedLT.induction with
  | ind m ih =>
    rintro t rfl hreach
    obtain ⟨r, hr⟩ := Option.isSome_iff_exists.mp (hall t hreach)
    rcases r with a | u
    · exact ⟨1, a, run_succ.mpr (Or.inl hr)⟩
    · obtain ⟨n, a, ha⟩ := ih _ (hμ t u hreach hr) u rfl (hreach.tail hr)
      exact ⟨n + 1, a, run_succ.mpr (Or.inr ⟨u, hr, ha⟩)⟩

/-- What every step keeps holds in every state that the loop comes to. -/
theorem Reaches.invariant {P : S → Prop} (h : Reaches step s t) (hs : P s)
    (hstep : ∀ s t, P s → step s = some (.inr t) → P t) : P t := by
  induction h with
  | refl => exact hs
  | tail _ hlast ih => exact hstep _ _ ih hlast

variable (step) in
/-- A test of all states of a run that finishes with the fuel. -/
def checks (P : S → Bool) : Nat → S → Bool
  | 0, _ => false
  | n + 1, s =>
    P s && match step s with
    | some (.inr t) => checks P n t
    | _ => true

theorem of_checks {P : S → Bool} (h : checks step P n s) (ht : Reaches step s t) : P t := by
  induction n generalizing s with
  | zero => cases h
  | succ n ih =>
    rw [checks, Bool.and_eq_true] at h
    rcases ht.cases_head with rfl | ⟨u, hstep, hrest⟩
    · exact h.1
    · rw [hstep] at h
      exact ih h.2 hrest

end FuelLoop
