import Mathlib.Data.BitVec

/-!
# Words with kept bytes

A word of bytes comes with a bit for each byte, which says whether the byte is kept. Shifting
both moves the kept bytes, and what is kept of a word is what is kept of its parts.
-/

namespace KeptBytes

open List BitVec

variable {w w' k k' : Nat}

/-- The byte at a place of a word, if it is kept. -/
def slotAt (data : BitVec w) (keep : BitVec k) (j : Nat) : Option (BitVec 8) :=
  if keep.getLsbD j then some (data.extractLsb' (8 * j) 8) else none

/-- What is kept of `n` bytes. -/
def keptIn (data : BitVec w) (keep : BitVec k) (start n : Nat) : List (BitVec 8) :=
  (List.range n).filterMap fun j => slotAt data keep (start + j)

/-- What is kept of a word. -/
def kept (data : BitVec w) (keep : BitVec k) : List (BitVec 8) := keptIn data keep 0 k

/-! ## Parts of words -/

variable {data : BitVec w} {keep : BitVec k} {n i : Nat}
variable {data' : BitVec w'} {keep' : BitVec k'} {start e : Nat}

theorem slotAt_congr {j j' : Nat} (hkeep : keep.getLsbD j = keep'.getLsbD j')
    (hdata : ∀ t < 8, data.getLsbD (8 * j + t) = data'.getLsbD (8 * j' + t)) :
    slotAt data keep j = slotAt data' keep' j' := by
  have hbyte : data.extractLsb' (8 * j) 8 = data'.extractLsb' (8 * j') 8 := by
    apply eq_of_getLsbD_eq
    intro t ht
    rw [getLsbD_extractLsb', getLsbD_extractLsb', hdata t ht]
  rw [slotAt, slotAt, hkeep, hbyte]

theorem keptIn_congr {start' : Nat}
    (h : ∀ j < n, slotAt data keep (start + j) = slotAt data' keep' (start' + j)) :
    keptIn data keep start n = keptIn data' keep' start' n :=
  filterMap_congr fun j hj => h j (mem_range.mp hj)

theorem keptIn_add (data : BitVec w) (keep : BitVec k) (start m n : Nat) :
    keptIn data keep start (m + n) =
      keptIn data keep start m ++ keptIn data keep (start + m) n := by
  simp only [keptIn, range_add, filterMap_append, filterMap_map]
  simp only [Function.comp_def, Nat.add_assoc]

theorem keptIn_eq_nil (h : ∀ j < n, keep.getLsbD (start + j) = false) :
    keptIn data keep start n = [] := by
  refine filterMap_eq_nil_iff.mpr fun j hj => ?_
  rw [slotAt, h j (mem_range.mp hj)]
  rfl

theorem kept_zero (data : BitVec w) : kept data 0#k = [] :=
  keptIn_eq_nil fun _ _ => getLsbD_zero

/-- The kept bytes before and after a place. -/
theorem kept_split (data : BitVec w) (keep : BitVec k) (hn : n ≤ k) :
    kept data keep = keptIn data keep 0 n ++ keptIn data keep n (k - n) := by
  have hadd := keptIn_add data keep 0 n (k - n)
  rwa [Nat.add_sub_cancel' hn, Nat.zero_add] at hadd

/-- Nothing is kept from some place on. -/
theorem kept_of_low (hn : n ≤ k) (h : ∀ j, n ≤ j → keep.getLsbD j = false) :
    kept data keep = keptIn data keep 0 n := by
  rw [kept_split data keep hn, keptIn_eq_nil fun j _ => h _ (Nat.le_add_right n j), append_nil]

/-- Nothing is kept beyond the word. -/
theorem kept_eq_keptIn (hn : k ≤ n) : kept data keep = keptIn data keep 0 n := by
  have hadd := keptIn_add data keep 0 k (n - k)
  rw [Nat.add_sub_cancel' hn, Nat.zero_add, keptIn_eq_nil fun j _ => getLsbD_of_ge _ _
    (Nat.le_add_right k j), append_nil] at hadd
  exact hadd.symm

theorem length_keptIn_of_all (h : ∀ j < n, keep.getLsbD (start + j)) :
    (keptIn data keep start n).length = n := by
  have heq : keptIn data keep start n =
      (List.range n).map fun j => data.extractLsb' (8 * (start + j)) 8 := by
    rw [← filterMap_eq_map]
    refine filterMap_congr fun j hj => ?_
    rw [slotAt, if_pos (h j (mem_range.mp hj))]
    rfl
  rw [heq, length_map, length_range]

/-! ## Moving bytes -/

theorem slotAt_ushiftRight (data : BitVec w) (keep : BitVec k) (e j : Nat) :
    slotAt (data >>> (8 * e)) (keep >>> e) j = slotAt data keep (e + j) := by
  refine slotAt_congr (by rw [getLsbD_ushiftRight]) fun t _ => ?_
  rw [getLsbD_ushiftRight]
  congr 1
  omega

theorem slotAt_setWidth (data : BitVec w') (keep : BitVec k') {j : Nat} (hj : j < k) :
    slotAt (data.setWidth (8 * k)) (keep.setWidth k) j = slotAt data keep j := by
  refine slotAt_congr ?_ fun t ht => ?_
  · rw [getLsbD_setWidth, decide_eq_true hj, Bool.true_and]
  · have hlt : 8 * j + t < 8 * k := by omega
    rw [getLsbD_setWidth, decide_eq_true hlt, Bool.true_and]

/-- Shifting a word to the right keeps its upper bytes. -/
theorem kept_ushiftRight (data : BitVec w) (keep : BitVec k) (he : e ≤ k) :
    kept (data >>> (8 * e)) (keep >>> e) = keptIn data keep e (k - e) := by
  rw [kept_of_low (Nat.sub_le k e)]
  · refine keptIn_congr fun j _ => ?_
    rw [slotAt_ushiftRight, Nat.zero_add]
  · intro j hj
    rw [getLsbD_ushiftRight]
    exact getLsbD_of_ge _ _ (by omega)

/-- Replace the upper bits of a word by the lower ones of another. -/
def putHigh (n : Nat) (word low : BitVec w) : BitVec w :=
  (low.setWidth n ++ word.setWidth (w - n)).setWidth w

theorem getLsbD_putHigh (hn : n ≤ w) (word low : BitVec w) (hi : i < w) :
    (putHigh n word low).getLsbD i =
      if i < w - n then word.getLsbD i else low.getLsbD (i - (w - n)) := by
  rw [putHigh, getLsbD_setWidth, getLsbD_append, decide_eq_true hi, Bool.true_and]
  split
  · next hlt => rw [getLsbD_setWidth, decide_eq_true hlt, Bool.true_and]
  · rw [getLsbD_setWidth, decide_eq_true (by omega), Bool.true_and]

/-- The kept bytes of a word whose upper bytes are replaced. -/
theorem kept_putHigh (word low : BitVec (8 * k)) (keep lowKeep : BitVec k) (he : e ≤ k) :
    kept (putHigh (8 * e) word low) (putHigh e keep lowKeep) =
      keptIn word keep 0 (k - e) ++ keptIn low lowKeep 0 e := by
  rw [kept_split _ _ (Nat.sub_le k e), Nat.sub_sub_self he]
  congr 1
  · refine keptIn_congr fun j hj => slotAt_congr ?_ fun t ht => ?_
    · rw [getLsbD_putHigh he _ _ (by omega), if_pos (by omega)]
    · rw [getLsbD_putHigh (by omega) _ _ (by omega), if_pos (by omega)]
  · refine keptIn_congr fun j hj => slotAt_congr ?_ fun t ht => ?_
    · rw [getLsbD_putHigh he _ _ (by omega), if_neg (by omega)]
      congr 1
      omega
    · rw [getLsbD_putHigh (by omega) _ _ (by omega), if_neg (by omega)]
      congr 1
      omega

theorem getLsbD_or_shiftLeft_low (word high : BitVec w) (hi : i < n) :
    (word ||| high <<< n).getLsbD i = word.getLsbD i := by
  rw [getLsbD_or, getLsbD_shiftLeft, decide_eq_true hi, Bool.not_true,
    Bool.and_false, Bool.false_and, Bool.or_false]

theorem getLsbD_or_shiftLeft_high {word : BitVec w} (high : BitVec w)
    (hword : word.getLsbD (n + i) = false) (hi : n + i < w) :
    (word ||| high <<< n).getLsbD (n + i) = high.getLsbD i := by
  rw [getLsbD_or, getLsbD_shiftLeft, hword, decide_eq_true hi,
    decide_eq_false (by omega), Bool.not_false, Bool.true_and, Bool.true_and, Bool.false_or,
    Nat.add_sub_cancel_left]

/-- The kept bytes of two words one above the other. -/
theorem kept_or_shiftLeft {word high : BitVec (8 * k)} {highKeep : BitVec k} {c : Nat}
    (hc : c ≤ k) (hdata : ∀ j, 8 * c ≤ j → word.getLsbD j = false)
    (hkeep : ∀ j, c ≤ j → keep.getLsbD j = false) :
    kept (word ||| high <<< (8 * c)) (keep ||| highKeep <<< c) =
      kept word keep ++ keptIn high highKeep 0 (k - c) := by
  rw [kept_split _ _ hc, kept_of_low hc hkeep]
  congr 1
  · refine keptIn_congr fun j hj => slotAt_congr ?_ fun t ht => ?_
    · exact getLsbD_or_shiftLeft_low _ _ (by omega)
    · exact getLsbD_or_shiftLeft_low _ _ (by omega)
  · refine keptIn_congr fun j hj => slotAt_congr ?_ fun t ht => ?_
    · rw [getLsbD_or_shiftLeft_high _ (hkeep _ (Nat.le_add_right c j)) (by omega), Nat.zero_add]
    · have hplace : 8 * (c + j) + t = 8 * c + (8 * j + t) := by omega
      rw [hplace, getLsbD_or_shiftLeft_high _ (hdata _ (Nat.le_add_right _ _)) (by omega),
        Nat.zero_add]

end KeptBytes
