import Alkali.Lowering.Buffers
import Mathlib.Algebra.Group.Int.Defs

/-!
# The growth of buffers

The runtime doubles the size of a buffer once when the bytes that it copies do not fit. A call
that copies more than that writes behind the end of the buffer. Sizes are of the type `int`: a
size that doubles to 2^31 or more overflows, and so does an offset that passes it. After appending
another buffer the offset moves by the offset of that buffer, whatever was copied.
-/

namespace Alkali.Buffers

open Buffers.State

/-- The buffer that a call copies bytes to, and their number. -/
def Op.copies (s : State) : Op → Option (Nat × Int)
  | .init _ | .extract .. => none
  | .emit buf size _ => some (buf, size)
  | .emitBuffer buf other => some (buf, (s.bufs other).size - (s.bufs other).offset)

/-- After a call, the offset of the destination and all bytes that were copied are within its
size, and the size is an `int`. -/
def Contained (s : State) (op : Op) (t : State) : Prop :=
  ∀ buf n, op.copies s = some (buf, n) → (t.bufs buf).offset ≤ (t.bufs buf).size ∧
      (∀ i, 0 ≤ i → i < n → (s.bufs buf).offset + i < (t.bufs buf).size) ∧
      (t.bufs buf).size < 2 ^ 31

/-- All calls of a sequence stay within the sizes. -/
def AllContained : State → List Op → Prop
  | _, [] => True
  | s, op :: ops => ∀ t, Runtime.step s op = some t → Contained s op t ∧ AllContained t ops

/-- There is room for bytes in the size, or in twice the size, which is an `int`. -/
def Buf.Takes (b : Buf) (n : Int) : Prop :=
  b.offset + n ≤ b.size ∨ b.offset + n ≤ 2 * b.size ∧ 2 * b.size < 2 ^ 31

/-- There is room for a struct. A buffer that is appended also needs room for its own offset, in
twice the size only if its bytes do not fit into the size. -/
def Room (s : State) : Op → Prop
  | .init _ | .extract .. => True
  | .emit buf size _ => (s.bufs buf).Takes size
  | .emitBuffer buf other =>
    let b := s.bufs buf
    let o := s.bufs other
    b.Takes (o.size - o.offset) ∧ (b.offset + o.offset ≤ b.size ∨
        b.size < b.offset + (o.size - o.offset) ∧ b.offset + o.offset ≤ 2 * b.size)

/-- There is room for each call of a sequence. -/
def AllRoom : State → List Op → Prop
  | _, [] => True
  | s, op :: ops => ∀ t, Runtime.step s op = some t → Room s op ∧ AllRoom t ops

/-- Sizes and offsets as `__rt_buf_init` gives them, and as they are later. -/
def Initialised (s : State) : Prop :=
  ∀ buf, 0 ≤ (s.bufs buf).size ∧ (s.bufs buf).size < 2 ^ 31 ∧ 0 ≤ (s.bufs buf).offset

/-- The size of a buffer when bytes are copied to it, as long as it is an `int`. -/
def Buf.grown (b : Buf) (n : Int) : Int := if b.offset + n > b.size then b.size * 2 else b.size

/-- What a call does to the sizes and offsets if it copies bytes and moves the offset. -/
structure Appends (s t : State) (buf : Nat) (n moved : Int) : Prop where
  nonneg : 0 ≤ n
  size : (t.bufs buf).size = (s.bufs buf).grown n
  offset : (t.bufs buf).offset = (s.bufs buf).offset + moved
  others : ∀ b, b ≠ buf → t.bufs b = s.bufs b

section Calls

variable {s t : State} {buf other size value : Nat}
variable {n moved : Int} {b : Buf}

/-- Grow a buffer if bytes do not fit, copy them to its offset and move the offset. -/
theorem appends_of_copy {u : State} {src : Ptr}
    (h : (if (s.bufs buf).offset + n > (s.bufs buf).size then s.grow buf else s).copy
      (cursor (if (s.bufs buf).offset + n > (s.bufs buf).size then s.grow buf else s) buf)
      src n = some u) : Appends s (u.advance buf moved) buf n moved := by
  obtain ⟨memory, hmemory, rfl⟩ := Option.map_eq_some_iff.mp h
  have hn := size_nonneg_of_memcpy hmemory
  by_cases hgrow : (s.bufs buf).offset + n > (s.bufs buf).size <;>
  · refine ⟨hn, ?_, ?_, fun b hb => ?_⟩
    · simp [Buf.grown, hgrow, advance, grow, setBuf]
    · simp [hgrow, advance, grow, setBuf]
    · simp [hgrow, advance, grow, setBuf, hb]

theorem appends_of_emit (h : Runtime.emit s buf size value = some t) :
    Appends s t buf size size := by
  obtain ⟨u, hu, rfl⟩ := Option.map_eq_some_iff.mp h
  exact appends_of_copy hu

theorem appends_of_concat (h : Runtime.concat s buf other = some t) :
    Appends s t buf ((s.bufs other).size - (s.bufs other).offset) (s.bufs other).offset := by
  obtain ⟨u, hu, rfl⟩ := Option.map_eq_some_iff.mp h
  have hoff : (u.bufs other).offset = (s.bufs other).offset := by
    rw [copy_bufs hu]
    split
    · by_cases hb : other = buf
      · simp [grow, setBuf, hb]
      · simp [grow, setBuf, hb]
    · rfl
  rw [hoff]
  exact appends_of_copy hu

theorem Buf.grown_nonneg (h : 0 ≤ b.size) : 0 ≤ b.grown n := by
  rw [Buf.grown]
  split
  · omega
  · exact h

theorem Initialised.appends (hs : Initialised s) (hmoved : 0 ≤ moved)
    (hsize : (t.bufs buf).size < 2 ^ 31) (h : Appends s t buf n moved) : Initialised t := by
  intro b
  by_cases hb : b = buf
  · subst hb
    refine ⟨?_, hsize, ?_⟩
    · rw [h.size]
      exact Buf.grown_nonneg (hs b).1
    · rw [h.offset]
      exact Int.add_nonneg (hs b).2.2 hmoved
  · rw [h.others b hb]
    exact hs b

theorem Initialised.step {op : Op} (hs : Initialised s) (h : Runtime.step s op = some t)
    (hc : Contained s op t) : Initialised t := by
  cases op with
  | init buf =>
    cases h
    intro b
    by_cases hb : b = buf
    · simp [init, setBuf, hb]
    · simpa [init, setBuf, hb] using hs b
  | extract buf size result =>
    cases h
    intro b
    have hb' := hs b
    by_cases hb : b = buf
    · subst hb
      simp only [Runtime.extract, advance, setBuf, Function.update_self]
      omega
    · simpa [Runtime.extract, advance, setBuf, hb] using hb'
  | emit buf size value =>
    exact hs.appends (Int.natCast_nonneg size) (hc buf size rfl).2.2 (appends_of_emit h)
  | emitBuffer buf other =>
    exact hs.appends (hs other).2.2 (hc buf _ rfl).2.2 (appends_of_concat h)

/-- The call stays within the size exactly if the size that it gets is enough and an `int`. -/
theorem Appends.contained_iff (h : Appends s t buf n moved) (hmoved : 0 ≤ moved) :
    ((t.bufs buf).offset ≤ (t.bufs buf).size ∧
        (∀ i, 0 ≤ i → i < n → (s.bufs buf).offset + i < (t.bufs buf).size) ∧
        (t.bufs buf).size < 2 ^ 31) ↔
      ((s.bufs buf).offset + n ≤ (s.bufs buf).grown n ∧ (s.bufs buf).grown n < 2 ^ 31) ∧
        (s.bufs buf).offset + moved ≤ (s.bufs buf).grown n := by
  rw [h.size, h.offset]
  have hn := h.nonneg
  constructor
  · rintro ⟨hoff, hbytes, hint⟩
    by_cases hzero : n = 0
    · omega
    · have := hbytes (n - 1) (by omega) (by omega)
      omega
  · rintro ⟨⟨hbytes, hint⟩, hoff⟩
    refine ⟨hoff, fun i _ hi => ?_, hint⟩
    omega

theorem Buf.takes_iff (h : 0 ≤ b.size ∧ b.size < 2 ^ 31) :
    b.offset + n ≤ b.grown n ∧ b.grown n < 2 ^ 31 ↔ b.Takes n := by
  rw [Buf.grown, Buf.Takes]
  split
  · omega
  · omega

theorem Buf.moved_le_grown_iff (h : 0 ≤ b.size) : b.offset + moved ≤ b.grown n ↔
      b.offset + moved ≤ b.size ∨ b.size < b.offset + n ∧ b.offset + moved ≤ 2 * b.size := by
  rw [Buf.grown]
  split
  · omega
  · omega

/-- A call stays within the size exactly if there is room for it. -/
theorem contained_iff_room {op : Op} (hs : Initialised s) (h : Runtime.step s op = some t) :
    Contained s op t ↔ Room s op := by
  cases op with
  | init buf => exact iff_of_true (fun _ _ hnone => by cases hnone) trivial
  | extract buf size result => exact iff_of_true (fun _ _ hnone => by cases hnone) trivial
  | emit buf size value =>
    have happends := appends_of_emit h
    have hiff := happends.contained_iff (Int.natCast_nonneg size)
    rw [and_iff_left_of_imp And.left, Buf.takes_iff ⟨(hs buf).1, (hs buf).2.1⟩] at hiff
    refine Iff.trans ⟨fun hc => hc buf size rfl, fun hc b n hb => ?_⟩ hiff
    cases hb
    exact hc
  | emitBuffer buf other =>
    have happends := appends_of_concat h
    have hiff := happends.contained_iff (hs other).2.2
    rw [Buf.takes_iff ⟨(hs buf).1, (hs buf).2.1⟩, Buf.moved_le_grown_iff (hs buf).1] at hiff
    refine Iff.trans ⟨fun hc => hc buf _ rfl, fun hc b n hb => ?_⟩ hiff
    cases hb
    exact hc

end Calls

/-- All calls of a sequence on initialised buffers stay within the sizes if and only if there is
room for each of them when it is made. -/
theorem allContained_iff_allRoom (s : State) (ops : List Op) (hs : Initialised s) :
    AllContained s ops ↔ AllRoom s ops := by
  induction ops generalizing s with
  | nil => exact Iff.rfl
  | cons op ops ih =>
    refine forall_congr' fun t => forall_congr' fun ht => ?_
    rw [← contained_iff_room hs ht]
    exact and_congr_right fun hc => ih t (hs.step ht hc)

/-- Two buffers of 1024 bytes, and a struct elsewhere. -/
def twoBuffers : State where
  memory := fun _ _ => 0
  next := 3
  bufs := fun buf => ⟨⟨buf % 2, 0⟩, 1024, 0⟩
  structs := fun _ => ⟨2, 0⟩

theorem twoBuffers_initialised : Initialised twoBuffers := by
  have h : (0 : Int) ≤ 1024 ∧ (1024 : Int) < 2 ^ 31 ∧ (0 : Int) ≤ 0 := by decide
  exact fun _ => h

theorem two_structs_contained :
    Initialised twoBuffers ∧ AllContained twoBuffers [.emit 0 1000 0, .emit 0 1000 0] := by
  refine ⟨twoBuffers_initialised,
    (allContained_iff_allRoom _ _ twoBuffers_initialised).mpr fun t ht => ?_⟩
  cases ht
  have hfirst : (0 : Int) + (1000 : Nat) ≤ 1024 := by decide
  refine ⟨Or.inl hfirst, fun t ht => ⟨Or.inr ?_, trivial⟩⟩
  have hsecond : (0 : Int) + (1000 : Nat) + (1000 : Nat) ≤ 2 * 1024 ∧
      2 * 1024 < (2 : Int) ^ 31 := by
    decide
  exact hsecond

/-- A struct of more than twice the size is copied behind the end of the buffer. So is the offset
after a buffer with an offset was appended to another one. -/
theorem growth_is_not_enough : ¬ AllContained twoBuffers [.emit 0 3000 0] ∧
      (∃ t, Runtime.step twoBuffers (.emit 0 3000 0) = some t ∧
        (t.bufs 0).size = 2048 ∧ (t.bufs 0).offset = 3000) ∧
      ∃ t, [Op.emit 0 500 0, .emit 1 1000 0, .emitBuffer 0 1].foldlM Runtime.step twoBuffers =
          some t ∧
        (t.bufs 0).size = 1024 ∧ (t.bufs 0).offset = 1500 := by
  refine ⟨fun h => ?_, ⟨_, rfl, rfl, rfl⟩, ⟨_, rfl, rfl, rfl⟩⟩
  have hroom := (contained_iff_room twoBuffers_initialised rfl).mp (h _ rfl).1
  have : ¬ ((0 : Int) + (3000 : Nat) ≤ 1024 ∨
      (0 : Int) + (3000 : Nat) ≤ 2 * 1024 ∧ 2 * 1024 < (2 : Int) ^ 31) := by decide
  exact this hroom

end Alkali.Buffers
