import Mathlib.Logic.Function.Basic

/-!
# Buffers

The runtime has functions that extract from a buffer, emit a struct into it and append the rest
of another buffer. The lowering to LLVM can call them, or it can emit code of its own that does
not look at the capacity. A struct is a pointer, and what is extracted is a pointer into the
buffer.
-/

namespace Alkali.Buffers

open List Function

/-- A position in a block of the memory. -/
structure Ptr where
  block : Nat
  position : Int
  deriving DecidableEq

def Ptr.add (p : Ptr) (n : Int) : Ptr := ⟨p.block, p.position + n⟩

/-- `buf_t` -/
structure Buf where
  data : Ptr
  size : Int
  offset : Int
  deriving DecidableEq

abbrev Memory := Nat → Int → UInt8

/-- The memory with the blocks below `next` in use, the buffers and the pointers to structs. What
a new block holds is already in the memory. -/
structure State where
  memory : Memory
  next : Nat
  bufs : Nat → Buf
  structs : Nat → Ptr

/-- The operations on buffers; a struct has a size. -/
inductive Op
  | init (buf : Nat)
  | extract (buf : Nat) (size : Nat) (result : Nat)
  | emit (buf : Nat) (size : Nat) (value : Nat)
  | emitBuffer (buf other : Nat)
  deriving DecidableEq, Repr

/-- Copy bytes. Different ranges that overlap have no defined result, and a negative number is a
huge one. -/
def memcpy (memory : Memory) (dst src : Ptr) (size : Int) : Option Memory :=
  if size < 0 ∨ dst.block = src.block ∧ dst.position ≠ src.position ∧
      dst.position < src.position + size ∧ src.position < dst.position + size then none
  else some fun block i =>
    if block = dst.block ∧ dst.position ≤ i ∧ i < dst.position + size then
      memory src.block (src.position + (i - dst.position))
    else memory block i

namespace State

variable (s : State) (buf : Nat)

def setBuf (b : Buf) : State := { s with bufs := update s.bufs buf b }

/-- Move the offset of a buffer. -/
def advance (n : Int) : State :=
  s.setBuf buf { s.bufs buf with offset := (s.bufs buf).offset + n }

/-- The end of what was read or written. -/
def cursor : Ptr := (s.bufs buf).data.add (s.bufs buf).offset

def copy (dst src : Ptr) (size : Int) : Option State :=
  (memcpy s.memory dst src size).map fun memory => { s with memory := memory }

/-- `__rt_buf_init`, in both cases. -/
def init : State :=
  { s.setBuf buf ⟨⟨s.next, 0⟩, 1024, 0⟩ with next := s.next + 1 }

/-- Twice the size, in a new block with the old bytes. -/
def grow : State :=
  let b := s.bufs buf
  { s.setBuf buf ⟨⟨s.next, 0⟩, b.size * 2, b.offset⟩ with
    memory := fun block i =>
      if block = s.next ∧ 0 ≤ i ∧ i < b.size then s.memory b.data.block (b.data.position + i)
      else s.memory block i
    next := s.next + 1 }

end State

/-! ## The runtime -/

namespace Runtime

variable (s : State)

/-- `__rt_buf_extract` -/
def extract (buf size result : Nat) : State :=
  { s.advance buf size with structs := update s.structs result (s.cursor buf) }

/-- `__rt_buf_emit` -/
def emit (buf size value : Nat) : Option State :=
  let s' := if (s.bufs buf).offset + size > (s.bufs buf).size then s.grow buf else s
  (s'.copy (s'.cursor buf) (s'.structs value) size).map fun t => t.advance buf size

/-- `__rt_buf_concat` -/
def concat (buf other : Nat) : Option State :=
  let size := (s.bufs other).size - (s.bufs other).offset
  let s' := if (s.bufs buf).offset + size > (s.bufs buf).size then s.grow buf else s
  (s'.copy (s'.cursor buf) (s'.cursor other) size).map fun t =>
    t.advance buf (t.bufs other).offset

def step (s : State) : Op → Option State
  | .init buf => some (s.init buf)
  | .extract buf size result => some (extract s buf size result)
  | .emit buf size value => emit s buf size value
  | .emitBuffer buf other => concat s buf other

end Runtime

/-! ## The native code -/

namespace Native

variable (s : State)

/-- `ExtractOpNativePattern` -/
def extract (buf size result : Nat) : State :=
  let ptr := (s.bufs buf).data.add (s.bufs buf).offset
  { s.advance buf size with structs := update s.structs result ptr }

/-- `EmitOpNativePattern` -/
def emit (buf size value : Nat) : Option State :=
  (s.copy (s.cursor buf) (s.structs value) size).map fun t => t.advance buf size

/-- `EmitBufferNativePattern` -/
def emitBuffer (buf other : Nat) : Option State :=
  let size := (s.bufs other).size - (s.bufs other).offset
  (s.copy (s.cursor buf) (s.cursor other) size).map fun t => t.advance buf size

def step (s : State) : Op → Option State
  | .init buf => some (s.init buf)
  | .extract buf size result => some (extract s buf size result)
  | .emit buf size value => emit s buf size value
  | .emitBuffer buf other => emitBuffer s buf other

end Native

/-! ## What the native code appends -/

/-- The bytes from a position on. -/
def bytes (memory : Memory) (p : Ptr) (n : Nat) : List UInt8 :=
  (List.range n).map fun i : Nat => memory p.block (p.position + i)

namespace State

variable (s : State)

/-- The bytes before the offset of a buffer. -/
def written (buf : Nat) : List UInt8 :=
  bytes s.memory (s.bufs buf).data (s.bufs buf).offset.toNat

end State

section Memory

variable {memory memory' : Memory} {dst src : Ptr} {size : Int}

theorem bytes_append (p : Ptr) (m n : Nat) :
    bytes memory p (m + n) = bytes memory p m ++ bytes memory (p.add m) n := by
  rw [bytes, range_add, map_append, map_map]
  refine congrArg (bytes memory p m ++ ·) (map_congr_left fun i _ => ?_)
  simp only [comp_apply, Ptr.add, Int.natCast_add, Int.add_assoc]

section

variable (h : memcpy memory dst src size = some memory')
include h

/-- The two cases of a copy. -/
theorem memcpy_apply (block : Nat) (i : Int) : memory' block i =
      if block = dst.block ∧ dst.position ≤ i ∧ i < dst.position + size then
        memory src.block (src.position + (i - dst.position))
      else memory block i := by
  rw [memcpy] at h
  split at h
  · cases h
  · rw [← Option.some.inj h]

theorem size_nonneg_of_memcpy : 0 ≤ size := by
  by_contra hneg
  rw [memcpy, if_pos (Or.inl (Int.not_le.mp hneg))] at h
  cases h

theorem bytes_copied : bytes memory' dst size.toNat = bytes memory src size.toNat := by
  refine map_congr_left fun i hi => ?_
  rw [mem_range] at hi
  rw [memcpy_apply h, if_pos ⟨rfl, by omega, by omega⟩]
  congr 1
  omega

theorem bytes_kept {p : Ptr} {n : Nat}
    (hkept : p.block = dst.block → p.position + n ≤ dst.position) :
    bytes memory' p n = bytes memory p n := by
  refine map_congr_left fun i hi => ?_
  rw [mem_range] at hi
  rw [memcpy_apply h, if_neg]
  rintro ⟨hblock, hle, -⟩
  omega

end

end Memory

namespace State

variable {s t : State} {dst src : Ptr} {size : Int}

theorem copy_bufs (h : s.copy dst src size = some t) : t.bufs = s.bufs := by
  obtain ⟨memory, -, rfl⟩ := Option.map_eq_some_iff.mp h
  rfl

theorem exists_copy (hblock : dst.block ≠ src.block) (hsize : 0 ≤ size) :
    ∃ t, s.copy dst src size = some t := by
  refine ⟨_, Option.map_eq_some_iff.mpr ⟨_, if_neg ?_, rfl⟩⟩
  rintro (hneg | ⟨heq, -⟩)
  · omega
  · exact hblock heq

/-- Bytes that are copied to the offset, before it is moved behind them, are appended. -/
theorem written_advance {buf : Nat} (hoff : 0 ≤ (s.bufs buf).offset)
    (h : s.copy (s.cursor buf) src size = some t) :
    (t.advance buf size).written buf = s.written buf ++ bytes s.memory src size.toNat := by
  obtain ⟨memory, hmemory, rfl⟩ := Option.map_eq_some_iff.mp h
  have hsize := size_nonneg_of_memcpy hmemory
  have hcursor : (s.bufs buf).data.add (s.bufs buf).offset.toNat = s.cursor buf := by
    rw [cursor, Int.toNat_of_nonneg hoff]
  have hkept : bytes memory (s.bufs buf).data (s.bufs buf).offset.toNat =
      bytes s.memory (s.bufs buf).data (s.bufs buf).offset.toNat := by
    refine bytes_kept hmemory fun _ => ?_
    rw [Int.toNat_of_nonneg hoff]
    exact Int.le_refl _
  simp only [written, advance, setBuf, update_self]
  rw [Int.toNat_add hoff hsize, bytes_append, hcursor, bytes_copied hmemory, hkept]

end State

/-! ## The two executions -/

/-- The buffers have the same sizes and offsets, and the same bytes before the offsets. -/
structure SameBuffers (s t : State) : Prop where
  size : ∀ buf, (s.bufs buf).size = (t.bufs buf).size
  offset : ∀ buf, (s.bufs buf).offset = (t.bufs buf).offset
  bytes : ∀ buf i, 0 ≤ i → i < (s.bufs buf).offset →
    s.memory (s.bufs buf).data.block ((s.bufs buf).data.position + i) =
      t.memory (t.bufs buf).data.block ((t.bufs buf).data.position + i)

variable (s : State)

/-- The operation stays within the capacity of its buffer. -/
def Fits : Op → Prop
  | .init _ => True
  | .extract buf size _ => (s.bufs buf).offset + size ≤ (s.bufs buf).size
  | .emit buf size _ => (s.bufs buf).offset + size ≤ (s.bufs buf).size
  | .emitBuffer buf other =>
    (s.bufs buf).offset + ((s.bufs other).size - (s.bufs other).offset) ≤ (s.bufs buf).size

/-- All operations of a sequence are defined and stay within the capacities. -/
def WithinCapacity : State → List Op → Prop
  | _, [] => True
  | s, op :: ops => Fits s op ∧ ∃ t, Native.step s op = some t ∧ WithinCapacity t ops

/-- The buffer that is appended is half read. -/
def HalfRead : Op → Prop
  | .emitBuffer _ other => 2 * (s.bufs other).offset = (s.bufs other).size
  | _ => True

/-- Every buffer that is appended in a sequence is half read then. -/
def AllHalfRead : State → List Op → Prop
  | _, [] => True
  | s, op :: ops => HalfRead s op ∧ ∀ t, Native.step s op = some t → AllHalfRead t ops

section Steps

variable {s t : State} {op : Op}

/-- Within the capacity, the runtime does what the native code does, if a buffer that is appended
is half read. -/
theorem step_eq (hfits : Fits s op) (hhalf : HalfRead s op) :
    Runtime.step s op = Native.step s op := by
  cases op with
  | init buf => rfl
  | extract buf size result => rfl
  | emit buf size value =>
    rw [Runtime.step, Native.step, Runtime.emit, Native.emit, if_neg (Int.not_lt.mpr hfits)]
  | emitBuffer buf other =>
    rw [Runtime.step, Native.step, Runtime.concat, Native.emitBuffer, if_neg (Int.not_lt.mpr hfits)]
    refine Option.map_congr fun t ht => ?_
    rw [State.copy_bufs ht]
    congr 1
    rw [HalfRead] at hhalf
    omega

/-- Otherwise the offsets are different after it. -/
theorem halfRead_of_same {t' : State} (hfits : Fits s op) (ht : Runtime.step s op = some t)
    (ht' : Native.step s op = some t') (hsame : SameBuffers t t') : HalfRead s op := by
  cases op with
  | init buf => trivial
  | extract buf size result => trivial
  | emit buf size value => trivial
  | emitBuffer buf other =>
    rw [Runtime.step, Runtime.concat, if_neg (Int.not_lt.mpr hfits)] at ht
    obtain ⟨u, hu, rfl⟩ := Option.map_eq_some_iff.mp ht
    obtain ⟨u', hu', rfl⟩ := Option.map_eq_some_iff.mp ht'
    have hoff := hsame.offset buf
    rw [Option.some.inj (hu.symm.trans hu')] at hoff
    simp only [State.advance, State.setBuf, update_self, State.copy_bufs hu'] at hoff
    rw [HalfRead]
    omega

end Steps

/-- The buffers are the same after each operation of a sequence. -/
def Agree (ops : List Op) : Prop :=
  ∀ n, ∃ t t', (ops.take n).foldlM Runtime.step s = some t ∧
    (ops.take n).foldlM Native.step s = some t' ∧ SameBuffers t t'

theorem SameBuffers.refl : SameBuffers s s :=
  ⟨fun _ => rfl, fun _ => rfl, fun _ _ _ _ => rfl⟩

theorem agree_nil : Agree s [] := by
  intro n
  rw [take_nil]
  exact ⟨s, s, rfl, rfl, SameBuffers.refl s⟩

variable {op : Op} {ops : List Op}

/-- After a step with the same result, the executions agree if they agree from there. -/
theorem agree_cons_iff {s t : State} (hruntime : Runtime.step s op = some t)
    (hnative : Native.step s op = some t) : Agree s (op :: ops) ↔ Agree t ops := by
  have hstep : ∀ n,
      ((op :: ops).take (n + 1)).foldlM Runtime.step s = (ops.take n).foldlM Runtime.step t ∧
      ((op :: ops).take (n + 1)).foldlM Native.step s = (ops.take n).foldlM Native.step t := by
    intro n
    rw [take_succ_cons, foldlM_cons, foldlM_cons, hruntime, hnative]
    exact ⟨rfl, rfl⟩
  constructor
  · intro h n
    rw [← (hstep n).1, ← (hstep n).2]
    exact h (n + 1)
  · intro h n
    cases n with
    | zero => exact ⟨s, s, rfl, rfl, SameBuffers.refl s⟩
    | succ n =>
      rw [(hstep n).1, (hstep n).2]
      exact h n

theorem Agree.halfRead {s : State} (h : Agree s (op :: ops)) (hfits : Fits s op) :
    HalfRead s op := by
  obtain ⟨t, t', ht, ht', hsame⟩ := h 1
  obtain ⟨u, hu, hut⟩ := Option.bind_eq_some_iff.mp ht
  obtain ⟨u', hu', hut'⟩ := Option.bind_eq_some_iff.mp ht'
  cases hut
  cases hut'
  exact halfRead_of_same hfits hu hu' hsame

/-- A sequence of operations that stays within the capacities leaves the same buffers after each
of them, with the runtime and with the native code, if and only if every buffer that is appended
to another one is half read then. -/
theorem agree_iff_allHalfRead (s : State) (ops : List Op) (hfits : WithinCapacity s ops) :
    Agree s ops ↔ AllHalfRead s ops := by
  induction ops generalizing s with
  | nil => exact ⟨fun _ => trivial, fun _ => agree_nil s⟩
  | cons op ops ih =>
    obtain ⟨hop, t, ht, hrest⟩ := hfits
    have hnext : HalfRead s op → (Agree s (op :: ops) ↔ AllHalfRead t ops) := fun hhalf =>
      (agree_cons_iff ((step_eq hop hhalf).trans ht) ht).trans (ih t hrest)
    constructor
    · intro h
      have hhalf := h.halfRead hop
      refine ⟨hhalf, fun u hu => ?_⟩
      rw [← Option.some.inj (ht.symm.trans hu)]
      exact (hnext hhalf).mp h
    · rintro ⟨hhalf, hall⟩
      exact (hnext hhalf).mpr (hall t ht)

/-- Emit structs into a buffer, given by size and number. -/
def emits (buf : Nat) (values : List (Nat × Nat)) : List Op :=
  values.map fun v => .emit buf v.1 v.2

/-- Structs outside of a buffer that has room for all of them are appended one after another, by
the native code and by the runtime. -/
theorem State.written_emits {s : State} {buf : Nat} (hoff : 0 ≤ (s.bufs buf).offset)
    (values : List (Nat × Nat))
    (hroom : (s.bufs buf).offset + (values.foldr (fun v n => v.1 + n) 0 : Nat) ≤
      (s.bufs buf).size)
    (hblock : ∀ v ∈ values, (s.bufs buf).data.block ≠ (s.structs v.2).block) :
    WithinCapacity s (emits buf values) ∧ ∃ t, (emits buf values).foldlM Native.step s = some t ∧
      (emits buf values).foldlM Runtime.step s = some t ∧ t.written buf =
        s.written buf ++ values.flatMap fun v => bytes s.memory (s.structs v.2) v.1 := by
  induction values generalizing s with
  | nil => exact ⟨trivial, s, rfl, rfl, by simp⟩
  | cons v values ih =>
    obtain ⟨u, hu⟩ : ∃ u, s.copy (s.cursor buf) (s.structs v.2) v.1 = some u :=
      exists_copy (hblock v mem_cons_self) (Int.natCast_nonneg v.1)
    have hrest := fun w hw => hblock w (mem_cons_of_mem v hw)
    rw [foldr_cons, Int.natCast_add] at hroom
    have hfits : Fits s (.emit buf v.1 v.2) := by
      rw [Fits]
      omega
    have hstep : Native.step s (.emit buf v.1 v.2) = some (u.advance buf v.1) :=
      Option.map_eq_some_iff.mpr ⟨u, hu, rfl⟩
    have hwritten := written_advance hoff hu
    obtain ⟨memory, hmemory, rfl⟩ := Option.map_eq_some_iff.mp hu
    -- a copy into the buffer keeps the structs
    have hkept : ∀ w ∈ values, bytes memory (s.structs w.2) w.1 =
        bytes s.memory (s.structs w.2) w.1 := fun w hw =>
      bytes_kept hmemory fun heq => absurd heq.symm (hrest w hw)
    obtain ⟨hwithin, t, hnative, hruntime, ht⟩ :=
      ih (s := advance { s with memory := memory } buf v.1)
        (by simp [advance, setBuf]; omega) (by simp [advance, setBuf]; omega)
        (by simpa [advance, setBuf] using hrest)
    rw [emits, map_cons, foldlM_cons, foldlM_cons, step_eq hfits trivial, hstep]
    refine ⟨⟨hfits, _, hstep, hwithin⟩, t, hnative, hruntime, ?_⟩
    rw [ht, hwritten, flatMap_cons, append_assoc]
    exact congrArg (fun bs => _ ++ (_ ++ flatten bs)) (map_congr_left hkept)

/-! ## Two new buffers -/

/-- A memory with no blocks. -/
def start : State where
  memory := fun _ _ => 0
  next := 0
  bufs := fun _ => ⟨⟨0, 0⟩, 0, 0⟩
  structs := fun _ => ⟨0, 0⟩

/-- A new buffer, and structs in another block with the bytes 0, 1 and so on. -/
def startStructs : State :=
  { start.init 0 with memory := fun _ i => .ofNat i.toNat, structs := fun _ => ⟨1, 0⟩ }

theorem written_emits_start : ∃ t, (emits 0 [(2, 0), (1, 0)]).foldlM Native.step startStructs =
      some t ∧ (emits 0 [(2, 0), (1, 0)]).foldlM Runtime.step startStructs = some t ∧
    t.written 0 = [0, 1, 0] := by
  have hoff : 0 ≤ (startStructs.bufs 0).offset := by decide
  exact (State.written_emits hoff [(2, 0), (1, 0)] (by decide) (by decide)).2

/-- Append a new buffer to another one, after a struct was extracted from it. -/
def appendRest (size : Nat) : List Op := [.init 0, .init 1, .extract 1 size 0, .emitBuffer 0 1]

theorem appendRest_withinCapacity {size : Nat} (h : size ≤ 1024) :
    WithinCapacity start (appendRest size) := by
  have hcopy : ∃ t, (Native.extract ((start.init 0).init 1) 1 size 0).copy
      ⟨0, 0 + 0⟩ ⟨1, 0 + (0 + size)⟩ (1024 - (0 + size)) = some t :=
    State.exists_copy Nat.zero_ne_one (by omega)
  obtain ⟨t, ht⟩ := hcopy
  refine ⟨trivial, _, rfl, trivial, _, rfl, ?_, _, rfl, ?_,
    _, Option.map_eq_some_iff.mpr ⟨t, ht, rfl⟩, trivial⟩
  · show (0 : Int) + size ≤ 1024
    omega
  · show (0 : Int) + (1024 - (0 + size)) ≤ 1024
    omega

theorem appendRest_agree :
    WithinCapacity start (appendRest 512) ∧ Agree start (appendRest 512) := by
  refine ⟨appendRest_withinCapacity (by decide),
    (agree_iff_allHalfRead _ _ (appendRest_withinCapacity (by decide))).mpr ?_⟩
  refine ⟨trivial, fun t ht => ?_⟩
  cases ht
  refine ⟨trivial, fun t ht => ?_⟩
  cases ht
  refine ⟨trivial, fun t ht => ?_⟩
  cases ht
  exact ⟨rfl, fun _ _ => trivial⟩

/-- After a header of four bytes was extracted, the runtime advances the offset by four and the
native code by the bytes that it copied. -/
theorem concat_advances_by_offset : WithinCapacity start (appendRest 4) ∧
      ∃ t t', (appendRest 4).foldlM Runtime.step start = some t ∧
        (appendRest 4).foldlM Native.step start = some t' ∧
        (t.bufs 0).offset = 4 ∧ (t'.bufs 0).offset = 1020 := by
  refine ⟨appendRest_withinCapacity (by decide), _, _, rfl, rfl, rfl, rfl⟩

end Alkali.Buffers
