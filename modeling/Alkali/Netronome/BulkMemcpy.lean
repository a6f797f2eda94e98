import Mathlib.Algebra.Order.Ring.Nat

/-!
# `bulk_memcpy`

The runtime copies in words as long as both pointers are aligned, and in bytes otherwise. It keeps
the pointers in 32-bit variables, so that it copies between the low parts of the addresses.
-/

namespace Alkali.BulkMemcpy

/-- The bytes by their addresses. -/
abbrev Memory := Nat → UInt8

/-- `*(word *) p = *(word *) q` for a word of `w` bytes. -/
def copyWord (w : Nat) (mem : Memory) (p q : Nat) : Memory := fun a =>
  if p ≤ a ∧ a < p + w then mem (q + (a - p)) else mem a

/-- The memory and the variables; `p` and `q` are of type `uint32_t`. -/
structure State where
  mem : Memory
  p : Nat
  q : Nat
  n : Nat

namespace State

variable (s : State)

/-- `ALIGNED_U64` and `ALIGNED_U32` of both pointers. -/
def aligned (w : Nat) : Bool := s.p % w == 0 && s.q % w == 0

def step (w : Nat) : State where
  mem := copyWord w s.mem s.p s.q
  p := (s.p + w) % 2 ^ 32
  q := (s.q + w) % 2 ^ 32
  n := s.n - w

/-- The width that the last loop chooses. -/
def width : Nat :=
  if 8 < s.n ∧ s.aligned 8 then 8 else if 4 < s.n ∧ s.aligned 4 then 4 else 1

end State

/-- `while (n >= least)`: copy words of the chosen width. -/
def loop (least : Nat) (width : State → Nat) : Nat → State → State
  | 0, s => s
  | fuel + 1, s => if least ≤ s.n then loop least width fuel (s.step (width s)) else s

def bulkMemcpy (mem : Memory) (dest src n : Nat) : Memory :=
  let s : State := ⟨mem, dest % 2 ^ 32, src % 2 ^ 32, n⟩
  let s := if s.aligned 8 then loop 8 (fun _ => 8) n s else s
  let s := if s.aligned 4 then loop 4 (fun _ => 4) n s else s
  (loop 1 State.width n s).mem

/-- What a copy should do. -/
def copied (mem : Memory) (dest src n : Nat) : Memory := fun a =>
  if dest ≤ a ∧ a < dest + n then mem (src + (a - dest)) else mem a

variable {least fuel w dest src n : Nat} {width : State → Nat} {s : State} {mem : Memory}

/-- What every step preserves holds after the loop. -/
theorem loop_rule {P : State → Prop} (hs : P s)
    (hstep : ∀ s, P s → least ≤ s.n → P (s.step (width s))) : P (loop least width fuel s) := by
  induction fuel generalizing s with
  | zero => exact hs
  | succ fuel ih =>
    rw [loop]
    split_ifs with hn
    · exact ih (hstep s hs hn)
    · exact hs

/-- There is enough fuel for the last loop to copy all bytes. -/
theorem loop_n_eq_zero (hwidth : ∀ s, 0 < width s) (hfuel : s.n ≤ fuel) :
    (loop 1 width fuel s).n = 0 := by
  induction fuel generalizing s with
  | zero => exact Nat.le_zero.mp hfuel
  | succ fuel ih =>
    rw [loop]
    split_ifs with hn
    · have hpos := hwidth s
      exact ih (by simp only [State.step]; omega)
    · omega

theorem aligned_iff : s.aligned w ↔ s.p % w = 0 ∧ s.q % w = 0 := by
  simp [State.aligned]

/-- The last loop copies bytes, or words that fit. -/
theorem width_spec (hn : 1 ≤ s.n) :
    (s.width = 1 ∨ s.width = 4 ∨ s.width = 8) ∧ s.aligned s.width ∧ s.width ≤ s.n := by
  rw [State.width]
  split_ifs with h8 h4
  · exact ⟨by simp, h8.2, h8.1.le⟩
  · exact ⟨by simp, h4.2, h4.1.le⟩
  · exact ⟨by simp, by simp [aligned_iff, Nat.mod_one], hn⟩

/-- What copies of aligned words preserve holds at the end, when all bytes are copied. -/
theorem bulkMemcpy_rule {P : State → Prop} (hinit : P ⟨mem, dest % 2 ^ 32, src % 2 ^ 32, n⟩)
    (hstep : ∀ s w, P s → w = 1 ∨ w = 4 ∨ w = 8 → s.aligned w → w ≤ s.n → P (s.step w)) :
    ∃ s, P s ∧ s.n = 0 ∧ bulkMemcpy mem dest src n = s.mem := by
  have hword : ∀ w, w = 4 ∨ w = 8 → ∀ {s : State}, P s ∧ s.n ≤ n →
      let t := if s.aligned w then loop w (fun _ => w) n s else s
      P t ∧ t.n ≤ n := by
    intro w hw s hs
    split_ifs with ha
    · refine (loop_rule (P := fun s => (P s ∧ s.n ≤ n) ∧ s.aligned w) ⟨hs, ha⟩ fun s h hn =>
        ⟨⟨hstep s w h.1.1 (Or.inr hw) h.2 hn, (Nat.sub_le _ _).trans h.1.2⟩, ?_⟩).1
      have hmod := aligned_iff.mp h.2
      rw [aligned_iff]
      simp only [State.step]
      rcases hw with rfl | rfl <;> omega
    · exact hs
  have hwords := hword 4 (Or.inl rfl) (hword 8 (Or.inr rfl) ⟨hinit, le_rfl⟩)
  refine ⟨_, loop_rule hwords.1 fun s hs hn => ?_, loop_n_eq_zero (fun s => ?_) hwords.2, rfl⟩
  · obtain ⟨hw, ha, hle⟩ := width_spec hn
    exact hstep s _ hs hw ha hle
  · rw [State.width]
    split_ifs <;> omega

/-- The first bytes are copied, and the pointers are behind them. -/
structure Copied (mem : Memory) (dest src n : Nat) (s : State) : Prop where
  le : s.n ≤ n
  p : s.p = (dest + (n - s.n)) % 2 ^ 32
  q : s.q = (src + (n - s.n)) % 2 ^ 32
  mem : s.mem = copied mem dest src (n - s.n)

/-- Below the last 32-bit address the words are copied as they should be. -/
theorem Copied.step (h : Copied mem dest src n s) (hw : 0 < w) (hn : w ≤ s.n)
    (hdest : dest + n ≤ 2 ^ 32) (hsrc : src + n ≤ 2 ^ 32)
    (hdisj : dest + n ≤ src ∨ src + n ≤ dest) : Copied mem dest src n (s.step w) := by
  have hle := h.le
  have hdone : n - (s.n - w) = n - s.n + w := by omega
  refine ⟨(Nat.sub_le _ _).trans hle, ?_, ?_, funext fun a => ?_⟩
  · simp only [State.step, h.p, hdone]
    omega
  · simp only [State.step, h.q, hdone]
    omega
  · have hp : s.p = dest + (n - s.n) := h.p.trans (Nat.mod_eq_of_lt (by omega))
    have hq : s.q = src + (n - s.n) := h.q.trans (Nat.mod_eq_of_lt (by omega))
    simp only [State.step, hdone, copyWord, h.mem, copied, hp, hq]
    split_ifs <;> first | omega | rfl | (congr 1; omega)

/-- Nothing above the 32-bit addresses is written or read. -/
structure Low (mem : Memory) (s : State) : Prop where
  p : s.p < 2 ^ 32
  q : s.q < 2 ^ 32
  high : ∀ a, 2 ^ 32 ≤ a → s.mem a = mem a
  low : ∀ a < 2 ^ 32, ∃ b < 2 ^ 32, s.mem a = mem b

theorem Low.step (h : Low mem s) (hw : w = 1 ∨ w = 4 ∨ w = 8) (ha : s.aligned w) :
    Low mem (s.step w) := by
  have hp := h.p
  have hq := h.q
  obtain ⟨hpw, hqw⟩ := aligned_iff.mp ha
  -- an aligned word does not cross the last address
  have hpend : s.p + w ≤ 2 ^ 32 := by rcases hw with rfl | rfl | rfl <;> omega
  have hqend : s.q + w ≤ 2 ^ 32 := by rcases hw with rfl | rfl | rfl <;> omega
  refine ⟨Nat.mod_lt _ (by decide), Nat.mod_lt _ (by decide), fun a ha => ?_, fun a ha => ?_⟩
  · simp only [State.step, copyWord]
    rw [if_neg (by omega), h.high a ha]
  · simp only [State.step, copyWord]
    split_ifs with hin
    · exact h.low _ (by omega)
    · exact h.low a ha

/-- A byte above the 32-bit addresses is not copied. -/
theorem bulkMemcpy_ne_copied {k : Nat} (hk : k < n) (hne : dest + k ≠ src + k)
    (hhigh : 2 ^ 32 ≤ dest + k ∨ 2 ^ 32 ≤ src + k) :
    ∃ mem, bulkMemcpy mem dest src n ≠ copied mem dest src n := by
  let mem : Memory := fun a => if a = src + k then 1 else 0
  refine ⟨mem, fun heq => ?_⟩
  have hinit : Low mem ⟨mem, dest % 2 ^ 32, src % 2 ^ 32, n⟩ :=
    ⟨Nat.mod_lt _ (by decide), Nat.mod_lt _ (by decide), fun _ _ => rfl, fun a ha => ⟨a, ha, rfl⟩⟩
  obtain ⟨s, hs, -, hmem⟩ := bulkMemcpy_rule hinit fun s w h hw ha _ => h.step hw ha
  have hbyte : s.mem (dest + k) = 1 := by
    rw [← hmem, heq, copied, if_pos (by omega)]
    exact if_pos (by omega)
  rcases le_or_gt (2 ^ 32) (dest + k) with hdest | hdest
  · rw [hs.high _ hdest, show mem (dest + k) = 0 from if_neg hne] at hbyte
    exact absurd hbyte (by decide)
  · obtain ⟨b, hb, hlow⟩ := hs.low _ hdest
    rw [hlow, show mem b = 0 from if_neg (by omega)] at hbyte
    exact absurd hbyte (by decide)

/-- Ranges that do not overlap are copied for every memory if and only if they end before the last
32-bit address. -/
theorem bulkMemcpy_eq_copied_iff (hdisjoint : dest + n ≤ src ∨ src + n ≤ dest) :
    (∀ mem, bulkMemcpy mem dest src n = copied mem dest src n) ↔
      n = 0 ∨ dest + n ≤ 2 ^ 32 ∧ src + n ≤ 2 ^ 32 := by
  constructor
  · intro h
    by_contra hnot
    have hne : ∃ mem, bulkMemcpy mem dest src n ≠ copied mem dest src n :=
      bulkMemcpy_ne_copied (k := n - 1) (by omega) (by omega) (by omega)
    exact hne.elim fun mem hmem => hmem (h mem)
  · intro h mem
    have hinit : Copied mem dest src n ⟨mem, dest % 2 ^ 32, src % 2 ^ 32, n⟩ := by
      refine ⟨le_rfl, by simp, by simp, funext fun a => ?_⟩
      simp [copied]
    obtain ⟨s, hs, hn, hmem⟩ := bulkMemcpy_rule hinit fun s w h' hw _ hle =>
      have hpos := h'.le
      h'.step (by omega) hle (by omega) (by omega) hdisjoint
    rw [hmem, hs.mem, hn, Nat.sub_zero]

theorem bulkMemcpy_eq_copied_low : (bulkMemcpy · 16 3 9) = (copied · 16 3 9) :=
  funext ((bulkMemcpy_eq_copied_iff (Or.inr (by decide))).mpr (Or.inr (by decide)))

/-- A byte for the address `2 ^ 32` is written to the address `0`. -/
theorem bulkMemcpy_high : ∃ mem : Memory, mem 8 = 1 ∧ bulkMemcpy mem (2 ^ 32) 8 1 0 = 1 ∧
    bulkMemcpy mem (2 ^ 32) 8 1 (2 ^ 32) = 0 ∧ copied mem (2 ^ 32) 8 1 (2 ^ 32) = 1 :=
  ⟨fun a => if a = 8 then 1 else 0, by decide⟩

end Alkali.BulkMemcpy
