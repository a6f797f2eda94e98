import Mathlib.Data.Finset.Card
import Mathlib.Data.Finset.Union

/-!
# Bounded graph search

A search that repeatedly adds the successors of every vertex found so far.
Inside a finite set of vertices that is closed under successors, as many
rounds as the set has elements reach exactly the vertices on a path from the
start.
-/

namespace Reachability

variable {V : Type*} [DecidableEq V] (succ : V → Finset V)

/-- One round of the search adds all direct successors. -/
def expand (found : Finset V) : Finset V := found ∪ found.biUnion succ

/-- The vertices found after `n` rounds from `start`. -/
def within (start : V) (n : Nat) : Finset V := (expand succ)^[n] {start}

/-- The search bounded by the number of `vertices`. -/
def search (vertices : Finset V) (start : V) : Finset V :=
  within succ start vertices.card

@[simp] theorem mem_expand {found : Finset V} {v : V} :
    v ∈ expand succ found ↔ v ∈ found ∨ ∃ u ∈ found, v ∈ succ u := by
  simp [expand]

@[simp] theorem within_zero (start : V) : within succ start 0 = {start} := rfl

theorem within_succ (start : V) (n : Nat) :
    within succ start (n + 1) = expand succ (within succ start n) := by
  simp [within, Function.iterate_succ_apply']

theorem within_subset_succ (start : V) (n : Nat) :
    within succ start n ⊆ within succ start (n + 1) := by
  intro v hv
  rw [within_succ, mem_expand]
  exact Or.inl hv

variable {n : Nat} {start : V} {vertices : Finset V}

theorem within_mono (start : V) {m : Nat} (h : m ≤ n) :
    within succ start m ⊆ within succ start n := by
  induction n, h using Nat.le_induction with
  | base => exact Finset.Subset.refl _
  | succ n _ ih => exact ih.trans (within_subset_succ succ start n)

theorem reflTransGen_of_mem_within {v : V} (h : v ∈ within succ start n) :
    Relation.ReflTransGen (fun a b => b ∈ succ a) start v := by
  induction n generalizing v with
  | zero =>
    rw [within_zero, Finset.mem_singleton] at h
    rw [h]
  | succ n ih =>
    rw [within_succ, mem_expand] at h
    rcases h with h | ⟨u, hu, hv⟩
    · exact ih h
    · exact (ih hu).tail hv

theorem within_subset_of_closed (hs : start ∈ vertices) (hc : ∀ u ∈ vertices, succ u ⊆ vertices)
    (n : Nat) : within succ start n ⊆ vertices := by
  induction n with
  | zero => simpa using hs
  | succ n ih =>
    intro v hv
    rw [within_succ, mem_expand] at hv
    rcases hv with hv | ⟨u, hu, hv⟩
    · exact ih hv
    · exact hc u (ih hu) hv

/-- A round that adds nothing leaves every later round unchanged. -/
theorem within_stable (h : within succ start (n + 1) = within succ start n) (k : Nat) :
    within succ start (n + k) = within succ start n := by
  induction k with
  | zero => rfl
  | succ k ih =>
    rw [← Nat.add_assoc, within_succ, ih, ← within_succ, h]

variable (hs : start ∈ vertices)
include hs

variable (hc : ∀ u ∈ vertices, succ u ⊆ vertices)
include hc

/-- Each round that adds something adds one of the vertices, so one of
the first `vertices.card` rounds adds nothing. -/
theorem exists_stable_round :
    ∃ n ≤ vertices.card, within succ start (n + 1) = within succ start n := by
  by_contra hno
  push Not at hno
  have hgrow : ∀ n ≤ vertices.card + 1, n + 1 ≤ (within succ start n).card := by
    intro n hn
    induction n with
    | zero => simp
    | succ n ih =>
      have hlt : (within succ start n).card < (within succ start (n + 1)).card := by
        apply Finset.card_lt_card
        exact Finset.ssubset_iff_subset_ne.mpr
          ⟨within_subset_succ succ start n, fun heq => hno n (by omega) heq.symm⟩
      omega
  have hmax := Finset.card_le_card
    (within_subset_of_closed succ hs hc vertices.card)
  have hbig := hgrow vertices.card (by omega)
  omega

theorem search_closed {u v : V} (hu : u ∈ search succ vertices start) (hv : v ∈ succ u) :
    v ∈ search succ vertices start := by
  obtain ⟨n, hn, hstable⟩ := exists_stable_round succ hs hc
  have hround : within succ start vertices.card = within succ start n := by
    have h := within_stable succ hstable (vertices.card - n)
    rwa [Nat.add_sub_cancel' hn] at h
  rw [search, hround] at hu ⊢
  rw [← hstable, within_succ, mem_expand]
  exact Or.inr ⟨u, hu, hv⟩

/-- Within a closed finite set the bounded search is exact. -/
theorem mem_search_iff (v : V) :
    v ∈ search succ vertices start ↔ Relation.ReflTransGen (fun a b => b ∈ succ a) start v := by
  constructor
  · exact reflTransGen_of_mem_within succ
  · intro h
    induction h with
    | refl => exact within_mono succ start (Nat.zero_le _) (by simp)
    | tail _ hstep ih => exact search_closed succ hs hc ih hstep

end Reachability
