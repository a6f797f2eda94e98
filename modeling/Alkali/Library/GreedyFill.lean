import Mathlib.Data.List.Nodup

/-!
# Filling bins in order

Items are handed out one by one, each to the first bin that has not reached its
size. What the bins hold in the end are consecutive segments of the items.
-/

namespace GreedyFill

open List Function

variable {α : Type}

/-- Hand out the items; stop if all of the first `n` bins are full. -/
def fill (n : Nat) (size : Nat → Nat) : List α → (Nat → List α) → Nat → List α
  | [], bins => bins
  | x :: xs, bins =>
    match (List.range n).find? fun i => decide ((bins i).length < size i) with
    | some i => fill n size xs (update bins i (bins i ++ [x]))
    | none => bins

/-- The number of items before those of bin `i`. -/
def start (size : Nat → Nat) : Nat → Nat
  | 0 => 0
  | i + 1 => start size i + size i

/-- The items of bin `i`. -/
def segment (size : Nat → Nat) (xs : List α) (i : Nat) : List α :=
  (xs.drop (start size i)).take (size i)

variable {size : Nat → Nat} {xs : List α} {n i : Nat}

theorem start_mono {j : Nat} (h : i ≤ j) : start size i ≤ start size j := by
  induction h with
  | refl => exact Nat.le_refl _
  | step _ ih => exact Nat.le_trans ih (Nat.le_add_right _ _)

theorem length_segment (i : Nat) :
    (segment size xs i).length = min (size i) (xs.length - start size i) := by
  simp [segment]

/-- The bins before one that is not full have got all of their items. -/
theorem start_le_length (h : ∀ j < i, ¬ (segment size xs j).length < size j) :
    start size i ≤ xs.length := by
  induction i with
  | zero => exact Nat.zero_le _
  | succ i ih =>
    have hbefore := ih fun j hj => h j (by omega)
    have hi := h i (Nat.lt_succ_self i)
    rw [length_segment] at hi
    rw [start]
    omega

/-- Items after those of a bin do not change it. -/
theorem segment_append_of_le (h : start size i + size i ≤ xs.length) (ys : List α) :
    segment size (xs ++ ys) i = segment size xs i := by
  rw [segment, segment, drop_append_of_le_length (by omega),
    take_append_of_le_length (by simp; omega)]

theorem segment_eq_nil (h : xs.length ≤ start size i) : segment size xs i = [] := by
  rw [segment, drop_eq_nil_of_le h, take_nil]

/-- One more item goes to the bin that is not full. -/
theorem segment_concat (hstart : start size i ≤ xs.length)
    (hnext : xs.length < start size (i + 1)) (x : α) :
    segment size (xs ++ [x]) = update (segment size xs) i (segment size xs i ++ [x]) := by
  funext j
  rcases Nat.lt_trichotomy j i with hlt | rfl | hgt
  · have hj : start size j + size j ≤ start size i := start_mono (Nat.succ_le_of_lt hlt)
    rw [update_of_ne (by omega), segment_append_of_le (by omega)]
  · rw [start] at hnext
    rw [update_self, segment, segment, drop_append_of_le_length hstart,
      take_of_length_le (by simp; omega), take_of_length_le (by simp; omega)]
  · have hj : start size (i + 1) ≤ start size j := start_mono hgt
    rw [update_of_ne (by omega), segment_eq_nil (by simp; omega), segment_eq_nil (by omega)]

/-- The bins hold consecutive segments of the items. -/
theorem fill_segment (hsize : ∀ j, n ≤ j → size j = 0) (xs ys : List α) :
    fill n size ys (segment size xs) = segment size (xs ++ ys) := by
  induction ys generalizing xs with
  | nil => simp [fill]
  | cons y ys ih =>
    rw [fill]
    split
    · next i hfind =>
        rw [find?_range_eq_some] at hfind
        obtain ⟨hi, -, hbefore⟩ := hfind
        have hstart : start size i ≤ xs.length :=
          start_le_length fun j hj => by simpa using hbefore j hj
        have hnext : xs.length < start size (i + 1) := by
          have hi : (segment size xs i).length < size i := by simpa using hi
          rw [length_segment] at hi
          rw [start]
          omega
        rw [← segment_concat hstart hnext, ih, append_assoc, singleton_append]
    · next hfind =>
        rw [find?_range_eq_none] at hfind
        have hall : start size n ≤ xs.length :=
          start_le_length fun j hj => by simpa using hfind j hj
        funext j
        by_cases hj : j < n
        · have hsub : start size j + size j ≤ start size n :=
            start_mono (Nat.succ_le_of_lt hj)
          exact (segment_append_of_le (by omega) _).symm
        · simp [segment, hsize j (Nat.le_of_not_lt hj)]

theorem fill_empty (hsize : ∀ j, n ≤ j → size j = 0) (xs : List α) :
    fill n size xs (fun _ => []) = segment size xs := by
  have hemp : (fun _ => []) = segment size ([] : List α) := by
    funext j
    simp [segment]
  rw [hemp, fill_segment hsize, nil_append]

theorem segment_ne_nil_iff : segment size xs i ≠ [] ↔ 0 < size i ∧ start size i < xs.length := by
  rw [← length_pos_iff, length_segment]
  omega

/-- Items of different bins are at different positions. -/
theorem segment_disjoint (hxs : xs.Nodup) {j : Nat} (h : i ≠ j) :
    (segment size xs i).Disjoint (segment size xs j) := by
  wlog hlt : i < j generalizing i j
  · exact fun x hx hy => this h.symm (by omega) hy hx
  · intro x hx hy
    have hle : start size i + size i ≤ start size j :=
      start_mono (Nat.succ_le_of_lt hlt)
    rw [segment, take_drop] at hx
    exact disjoint_take_drop hxs hle (mem_of_mem_drop hx) (mem_of_mem_take hy)

end GreedyFill
