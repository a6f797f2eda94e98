import Mathlib.Data.List.Basic

/-!
# Reordering a sequence of state transformers

Steps that commute up to a preorder on states can be sorted by a predicate
without changing what a run reaches. Nothing is said about steps that keep
their relative order.
-/

namespace Reorder

variable {σ α : Type*} (step : α → σ → σ) (R : σ → σ → Prop)

/-- Run the steps of a list in order. -/
def run (l : List α) (s : σ) : σ := l.foldl (fun s a => step a s) s

@[simp] theorem run_cons (a : α) (l : List α) (s : σ) :
    run step (a :: l) s = run step l (step a s) := rfl

@[simp] theorem run_append (l l' : List α) (s : σ) :
    run step (l ++ l') s = run step l' (run step l s) := by
  simp [run]

/-- What the relation has to satisfy to be carried through a run. -/
structure Compatible : Prop where
  refl : ∀ s, R s s
  trans : ∀ s t u, R s t → R t u → R s u
  mono : ∀ a s t, R s t → R (step a s) (step a t)

/-- Two steps whose order does not matter. -/
def Commutes (a b : α) : Prop := ∀ s, R (step b (step a s)) (step a (step b s))

variable {step R}

variable (h : Compatible step R)
include h

theorem Compatible.run_mono (l : List α) {s t : σ} (hst : R s t) :
    R (run step l s) (run step l t) := by
  induction l generalizing s t with
  | nil => exact hst
  | cons a l ih => exact ih (h.mono a s t hst)

/-- A step moves behind a list of steps that it commutes with. -/
theorem Compatible.run_move {a : α} {l : List α} (hl : ∀ b ∈ l, Commutes step R a b) (s : σ) :
    R (run step l (step a s)) (step a (run step l s)) := by
  induction l generalizing s with
  | nil => exact h.refl _
  | cons b l ih =>
    have hhead := h.run_mono l (hl b (by simp) s)
    exact h.trans _ _ _ hhead (ih (fun c hc => hl c (by simp [hc])) (step b s))

/-- Steps that satisfy `p` move before the others when each of them commutes
with the steps it passes. -/
theorem Compatible.run_partition (p : α → Bool) {l : List α}
    (hl : l.Pairwise fun a b => p a = false → p b = true → Commutes step R a b) (s : σ) :
    R (run step l s) (run step (l.filter p ++ l.filter fun a => !p a) s) := by
  induction l generalizing s with
  | nil => exact h.refl _
  | cons a l ih =>
    obtain ⟨hhead, htail⟩ := List.pairwise_cons.mp hl
    have hrest := ih htail (step a s)
    cases hp : p a with
    | true => simpa [hp] using hrest
    | false =>
      have hmove := h.run_move (a := a) (l := l.filter p)
        (fun b hb => hhead b (List.mem_filter.mp hb).1 hp (List.mem_filter.mp hb).2) s
      have hswap := h.run_mono (l.filter fun a => !p a) hmove
      refine h.trans _ _ _ hrest ?_
      simpa [hp] using hswap

end Reorder
