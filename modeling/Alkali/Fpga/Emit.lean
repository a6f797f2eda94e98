import Alkali.Fpga.Extract

/-!
# The module `emit`

`emit` appends a struct, or a buffer, to each frame of a buffer. A shift register of two words
joins what the buffer has left with the first beat of the struct. A full beat of the buffer is
always sent as the end of a frame.
-/

namespace Alkali.Fpga.Emit

open Synchronous KeptBytes List Circuit Slot Beat

inductive State
  | emitBuf | emitStruct
  deriving DecidableEq, Repr

/-- The registers: the words `hi` and `lo` of the shift register, and the bits by which the
struct is shifted. -/
structure Regs (w k : Nat) where
  state : State
  hi : Slot w k
  lo : Slot w k
  structShiftCount : BitVec k

/-- `s_inbuf_axis`, `s_struct_axis` and the ready signal of `m_outbuf_axis`. -/
structure Inputs (w k sw sk : Nat) where
  inbuf : Option (Beat w k)
  struct : Option (Beat sw sk)
  ready : Bool

structure Outputs (w k : Nat) where
  inbufReady : Bool
  structReady : Bool
  outbuf : Option (Beat w k)

variable {w k sw sk : Nat}

/-- `wrapped_s_struct_axis`: a struct is one beat, of which as many bytes are kept as a beat of
the buffer has. -/
def wrapped (ifInputBuf : Bool) (k : Nat) (b : Beat sw sk) : Beat sw sk :=
  if ifInputBuf then b else { b with tkeep := .ofNat sk (2 ^ k - 1), tlast := true }

/-- `count_one_reg`, which has ten bits. -/
def countOneReg (keep : BitVec k) : Nat := (List.range k).countP keep.getLsbD % 2 ^ 10

section Signals

variable (ifInputBuf : Bool) (s : Regs w k) (i : Inputs w k sw sk)

def inbufReady : Bool := decide (s.state = .emitBuf) && !s.lo.occupancy

def structReady : Bool := decide (s.state = .emitStruct) && !s.lo.occupancy && i.ready

/-- The beat of the buffer that comes in. -/
def bufIn : Option (Beat w k) := if inbufReady s then i.inbuf else none

/-- The beat of the struct that comes in. -/
def structIn : Option (Beat sw sk) :=
  if structReady s i then i.struct.map (wrapped ifInputBuf k) else none

/-- The lower word with a beat of the buffer. -/
def loWithBuf (b : Beat w k) : Slot w k where
  data := b.tdata
  keep := b.tkeep
  valid := s.lo.valid || decide (b.tkeep = .allOnes k)
  last := s.lo.last || decide (b.tkeep = .allOnes k)
  occupancy := s.lo.occupancy || decide (b.tkeep ≠ 0)

/-- The upper bytes of the struct that do not fit into the upper word. -/
def keepRest (b : Beat sw sk) : BitVec sk := b.tkeep >>> (s.structShiftCount.toNat / 8)

/-- `shift_keep_tmp`. -/
def shiftKeepTmp (b : Beat sw sk) : BitVec k :=
  b.tkeep.setWidth k <<< (k - s.structShiftCount.toNat / 8)

/-- The lower word with the upper bytes of the struct. -/
def loWithStruct (b : Beat sw sk) : Slot w k where
  data := s.lo.data ||| (b.tdata >>> s.structShiftCount.toNat).setWidth w
  keep := s.lo.keep ||| (keepRest s b).setWidth k
  valid := s.lo.valid || decide (keepRest s b ≠ 0) && b.tlast
  last := s.lo.last || decide (keepRest s b ≠ 0) && b.tlast
  occupancy := s.lo.occupancy || decide (keepRest s b ≠ 0)

/-- The upper word with the lower bytes of the struct. -/
def hiWithStruct (b : Beat sw sk) : Slot w k where
  data := s.hi.data ||| b.tdata.setWidth w <<< (w - s.structShiftCount.toNat) |||
    (b.tdata >>> s.structShiftCount.toNat >>> w).setWidth w
  keep := s.hi.keep ||| shiftKeepTmp s b ||| (keepRest s b >>> k).setWidth k
  valid := s.hi.valid || decide (shiftKeepTmp s b ≠ 0)
  last := s.hi.last ||
    decide (shiftKeepTmp s b ≠ 0) && b.tlast && !(loWithStruct s b).last
  occupancy := s.hi.occupancy || decide (shiftKeepTmp s b ≠ 0)

/-- `shift_wire` and the wires that go with it. -/
def wires : Slot w k × Slot w k :=
  match bufIn s i, structIn ifInputBuf s i with
  | some b, _ => (s.hi, loWithBuf s b)
  | none, some b => (hiWithStruct s b, loWithStruct s b)
  | none, none => (s.hi, s.lo)

def output : Outputs w k where
  inbufReady := inbufReady s
  structReady := structReady s i
  outbuf :=
    if (wires ifInputBuf s i).1.valid then some (wires ifInputBuf s i).1.beat else none

/-- The shift register after the cycle. -/
def shifted (ready : Bool) (hi lo : Slot w k) : Slot w k × Slot w k :=
  if !hi.occupancy || (ready && hi.valid) then (lo, .empty) else (hi, lo)

def stateNext : State :=
  match s.state, bufIn s i, structIn ifInputBuf s i with
  | .emitBuf, some b, _ => if b.tlast then .emitStruct else .emitBuf
  | .emitStruct, _, some b => if b.tlast then .emitBuf else .emitStruct
  | state, _, _ => state

/-- `struct_shift_count` is loaded with each beat of the buffer. -/
def countNext : BitVec k :=
  match bufIn s i with
  | some b => if b.tkeep = .allOnes k then 0 else .ofNat k (8 * (k - countOneReg b.tkeep))
  | none => s.structShiftCount

def next : Regs w k where
  state := stateNext ifInputBuf s i
  hi := (shifted i.ready (wires ifInputBuf s i).1 (wires ifInputBuf s i).2).1
  lo := (shifted i.ready (wires ifInputBuf s i).1 (wires ifInputBuf s i).2).2
  structShiftCount := countNext s i

end Signals

/-- The module `emit` with the parameters `IF_INPUT_BUF`, `BUF_DATA_WIDTH`, `BUF_KEEP_WIDTH`,
`INPUT_BUF_STRUCT_WIDTH` and `INPUT_BUF_STRUCT_KEEP_WIDTH`. -/
def emit (ifInputBuf : Bool) (w k sw sk : Nat) :
    Circuit (Regs w k) (Inputs w k sw sk) (Outputs w k) where
  init := ⟨.emitBuf, .empty, .empty, 0⟩
  output := output ifInputBuf
  next := next ifInputBuf

/-! ## What the module is for -/

def acceptedBuf (i : Inputs w k sw sk) (o : Outputs w k) : Option (Beat w k) :=
  if o.inbufReady then i.inbuf else none

def acceptedStruct (ifInputBuf : Bool) (i : Inputs w k sw sk) (o : Outputs w k) :
    Option (Beat sw sk) :=
  if o.structReady then i.struct.map (wrapped ifInputBuf k) else none

def sent (i : Inputs w k sw sk) (o : Outputs w k) : Option (Beat w k) :=
  if i.ready then o.outbuf else none

/-- The bytes of each frame of the buffer followed by those of its struct. -/
def joined (bufs : List (Beat w k)) (structs : List (Beat sw sk)) : List (List (BitVec 8)) :=
  List.zipWith (fun f t => keptOf f ++ keptOf t) (frames tlast bufs)
    (frames tlast structs)

/-- Between two frames, the frames that were sent are the joined ones. -/
def InOrder (ifInputBuf : Bool) (h : List (Inputs w k sw sk × Outputs w k)) : Prop :=
  unfinished tlast (transfers sent h) = false → (frames tlast (transfers sent h)).map keptOf <+:
      joined (transfers acceptedBuf h) (transfers (acceptedStruct ifInputBuf) h)

/-- A cycle without input in which the receiver is ready. -/
def Quiet (i : Inputs w k sw sk) : Prop := i.inbuf = none ∧ i.struct = none ∧ i.ready

/-- Either all pairs are complete and were sent, and the next frame of the buffer can come in,
or the struct can. -/
def Delivered (ifInputBuf : Bool) (h : List (Inputs w k sw sk × Outputs w k)) (s : Regs w k) :
    Prop :=
  let bufs := transfers acceptedBuf h
  let structs := transfers (acceptedStruct ifInputBuf) h
  let outs := transfers sent h
  if unfinished tlast structs = false ∧
      (frames tlast bufs).length = (frames tlast structs).length then
    unfinished tlast outs = false ∧
      (frames tlast outs).map keptOf = joined bufs structs ∧ inbufReady s
  else ∀ i : Inputs w k sw sk, i.ready → structReady s i

/-- The first bytes of a beat are kept, and the others are zero. -/
structure Packed (c : Nat) (b : Beat w k) : Prop where
  keep : ∀ j, b.tkeep.getLsbD j = decide (j < c)
  data : ∀ j, 8 * c ≤ j → b.tdata.getLsbD j = false

/-- A frame of the buffer is one beat that is packed and not full; if it is empty, the shift
register is free. The first byte of each beat of a struct is kept. -/
structure Short (ifInputBuf : Bool) (s : Regs w k) (i : Inputs w k sw sk) : Prop where
  buf : ∀ b ∈ bufIn s i, b.tlast ∧ ∃ c < k, Packed c b ∧ (c = 0 → s.hi.occupancy = false ∨ i.ready)
  struct : ∀ b ∈ structIn ifInputBuf s i, b.tkeep.getLsbD 0

/-! ## The shift register -/

/-- What is left of a beat: `c` bytes, not all of which have to be kept. -/
structure Left (c : Nat) (slot : Slot w k) : Prop where
  valid : slot.valid = false
  last : slot.last = false
  keep : ∀ j, c ≤ j → slot.keep.getLsbD j = false
  data : ∀ j, 8 * c ≤ j → slot.data.getLsbD j = false
  free : slot.occupancy = false → slot.keep = 0

/-- The last word of a frame. -/
structure Ending (slot : Slot w k) : Prop where
  occupancy : slot.occupancy
  valid : slot.valid
  last : slot.last

/-- The words of the shift register between two cycles. -/
inductive Shape (c : Nat) : State → Slot w k → Slot w k → Prop
  | idle {hi : Slot w k} (occupancy : hi.occupancy = false) (valid : hi.valid = false) :
      Shape c .emitBuf hi .empty
  | ending {hi : Slot w k} (ending : Ending hi) : Shape c .emitBuf hi .empty
  | begun {hi : Slot w k} (left : Left c hi) : Shape c .emitStruct hi .empty
  | behind {hi lo : Slot w k} (ending : Ending hi) (left : Left c lo)
      (occupancy : lo.occupancy) : Shape c .emitStruct hi lo

/-- The last word of a frame that waits. -/
def waiting (hi : Slot w k) : List (Beat w k) := if hi.valid then [hi.beat] else []

/-- The bytes that wait for the struct. -/
def leftover (hi lo : Slot w k) : List (BitVec 8) :=
  if hi.valid then lo.beat.kept else hi.beat.kept

/-- What a cycle without input does. -/
theorem Shape.shifted_step {c : Nat} {state : State} {hi lo : Slot w k} (h : Shape c state hi lo)
    (ready : Bool) :
    let next := shifted ready hi lo
    Shape c state next.1 next.2 ∧
      waiting hi = (if ready && hi.valid then some hi.beat else none).toList ++ waiting next.1 ∧
      (state = .emitStruct → leftover hi lo = leftover next.1 next.2) := by
  rw [Emit.shifted]
  cases h with
  | idle hocc hvalid =>
    simp only [hocc, hvalid]
    refine ⟨by simpa using Shape.idle rfl rfl, ?_, nofun⟩
    simp [waiting, hvalid, empty]
  | ending hending =>
    simp only [hending.occupancy, hending.valid]
    cases ready
    · simpa using Shape.ending hending
    · refine ⟨by simpa using Shape.idle rfl rfl, ?_, nofun⟩
      simp [waiting, hending.valid, empty]
  | begun hleft =>
    simp only [hleft.valid]
    cases hocc : hi.occupancy
    · have hemp : Left c (empty : Slot w k) :=
        ⟨rfl, rfl, fun _ _ => BitVec.getLsbD_zero, fun _ _ => BitVec.getLsbD_zero, fun _ => rfl⟩
      refine ⟨by simpa using Shape.begun hemp, ?_, fun _ => ?_⟩
      · simp [waiting, hleft.valid, empty]
      · simp [leftover, hleft.valid, empty, beat, Beat.kept, hleft.free hocc, kept_zero]
    · simpa using Shape.begun hleft
  | behind hending hleft hocc =>
    simp only [hending.occupancy, hending.valid]
    cases ready
    · simpa using Shape.behind hending hleft hocc
    · refine ⟨by simpa using Shape.begun hleft, ?_, fun _ => ?_⟩
      · simp [waiting, hending.valid, hleft.valid]
      · simp [leftover, hending.valid, hleft.valid]

/-! ## Joining words -/

section Join

variable {c : Nat} {s : Regs (8 * k) k} {b : Beat (8 * sk) sk}

theorem countP_lt_range {c k : Nat} (hc : c ≤ k) :
    (List.range k).countP (fun j => decide (j < c)) = c := by
  obtain ⟨d, rfl⟩ := Nat.exists_eq_add_of_le hc
  have hall : (List.range c).countP (fun j => decide (j < c)) = (List.range c).length :=
    countP_eq_length.mpr fun j hj => decide_eq_true (mem_range.mp hj)
  rw [range_add, countP_append, hall, length_range, countP_map]
  simp

/-- The shift count leaves room for the bytes of the buffer. -/
theorem toNat_shiftCount {c : Nat} (hc : c < k) (hk : 8 * k < 2 ^ k) (hk' : k < 2 ^ 10)
    {b : Beat w k} (hb : Packed c b) :
    b.tkeep ≠ .allOnes k ∧
      (BitVec.ofNat k (8 * (k - countOneReg b.tkeep))).toNat = 8 * (k - c) := by
  constructor
  · intro hfull
    have hbit := hb.keep c
    rw [hfull, BitVec.getLsbD_allOnes, decide_eq_true hc] at hbit
    simp at hbit
  · have hcnt : countOneReg b.tkeep = c := by
      rw [countOneReg, show b.tkeep.getLsbD = fun j => decide (j < c) from funext hb.keep,
        countP_lt_range hc.le, Nat.mod_eq_of_lt (hc.trans hk')]
    rw [hcnt, BitVec.toNat_ofNat, Nat.mod_eq_of_lt]
    omega

theorem kept_loWithStruct (hlo : s.lo = .empty) (hcnt : s.structShiftCount.toNat = 8 * (k - c)) :
    (loWithStruct s b).beat.kept = keptIn b.tdata b.tkeep (k - c) k := by
  rw [beat, loWithStruct, keepRest, hlo, hcnt, Nat.mul_div_cancel_left _ (by decide)]
  simp only [empty, BitVec.ofNat_eq_ofNat, BitVec.zero_or, Beat.kept]
  refine keptIn_congr fun j hj => ?_
  rw [Nat.zero_add, slotAt_setWidth _ _ hj, slotAt_ushiftRight]

theorem shiftKeepTmp_eq (hc : c < k) (hcnt : s.structShiftCount.toNat = 8 * (k - c)) :
    shiftKeepTmp s b = b.tkeep.setWidth k <<< c := by
  rw [shiftKeepTmp, hcnt, Nat.mul_div_cancel_left _ (by decide), Nat.sub_sub_self hc.le]

theorem kept_hiWithStruct (hc : c < k) (hsk : sk ≤ k) (hleft : Left c s.hi)
    (hcnt : s.structShiftCount.toNat = 8 * (k - c)) :
    (hiWithStruct s b).beat.kept = s.hi.beat.kept ++ keptIn b.tdata b.tkeep 0 (k - c) := by
  have hdata : (b.tdata >>> s.structShiftCount.toNat >>> (8 * k)).setWidth (8 * k) = 0#(8 * k) := by
    apply BitVec.eq_of_getLsbD_eq
    intro j _
    rw [BitVec.getLsbD_setWidth, BitVec.getLsbD_ushiftRight, BitVec.getLsbD_ushiftRight,
      BitVec.getLsbD_of_ge _ _ (by omega), Bool.and_false, BitVec.getLsbD_zero]
  have hkeep : (keepRest s b >>> k).setWidth k = 0#k := by
    apply BitVec.eq_of_getLsbD_eq
    intro j _
    rw [BitVec.getLsbD_setWidth, keepRest, BitVec.getLsbD_ushiftRight,
      BitVec.getLsbD_ushiftRight, BitVec.getLsbD_of_ge _ _ (by omega), Bool.and_false,
      BitVec.getLsbD_zero]
  have hshift : 8 * k - 8 * (k - c) = 8 * c := by omega
  have hjoin : kept (s.hi.data ||| b.tdata.setWidth (8 * k) <<< (8 * c))
      (s.hi.keep ||| b.tkeep.setWidth k <<< c) = _ :=
    kept_or_shiftLeft hc.le hleft.data hleft.keep
  rw [beat, hiWithStruct, hdata, hkeep, shiftKeepTmp_eq hc hcnt, hcnt, hshift]
  simp only [BitVec.or_zero, Beat.kept]
  rw [hjoin]
  exact congrArg _ (keptIn_congr fun j hj => slotAt_setWidth _ _ (by omega))

/-- The bytes of a beat of the struct are those in the two words. -/
theorem kept_struct (hsk : sk ≤ k) (c : Nat) (b : Beat (8 * sk) sk) :
    b.kept = keptIn b.tdata b.tkeep 0 (k - c) ++ keptIn b.tdata b.tkeep (k - c) k := by
  rw [Beat.kept, kept_eq_keptIn (show sk ≤ k - c + k by omega), keptIn_add, Nat.zero_add]

theorem shiftKeepTmp_ne_zero (hc : c < k) (hcnt : s.structShiftCount.toNat = 8 * (k - c))
    (hb : b.tkeep.getLsbD 0) : shiftKeepTmp s b ≠ 0 := by
  intro hzero
  have hbit : (shiftKeepTmp s b).getLsbD c = true := by
    rw [shiftKeepTmp_eq hc hcnt]
    simp [hc, hb]
  rw [hzero] at hbit
  simp at hbit

theorem left_loWithStruct (hc : c < k) (hsk : sk ≤ k) (hlo : s.lo = .empty)
    (hcnt : s.structShiftCount.toNat = 8 * (k - c)) (hb : b.tlast = false) :
    Left c (loWithStruct s b) where
  valid := by simp [loWithStruct, hlo, hb, empty]
  last := by simp [loWithStruct, hlo, hb, empty]
  keep j hj := by
    rw [loWithStruct, keepRest, hlo, hcnt, Nat.mul_div_cancel_left _ (by decide)]
    simp [empty, BitVec.getLsbD_of_ge b.tkeep (k - c + j) (by omega)]
  data j hj := by
    rw [loWithStruct, hlo, hcnt]
    simp [empty, BitVec.getLsbD_of_ge b.tdata (8 * (k - c) + j) (by omega)]
  free hfree := by
    have hzero : keepRest s b = 0 := by simpa [loWithStruct, hlo, empty] using hfree
    rw [loWithStruct, hzero, hlo]
    simp [empty]

theorem left_loWithBuf {c : Nat} {s : Regs w k} {b : Beat w k} (hlo : s.lo = .empty)
    (hfull : b.tkeep ≠ .allOnes k) (hb : Packed c b) : Left c (loWithBuf s b) where
  valid := by simp [loWithBuf, hlo, hfull, empty]
  last := by simp [loWithBuf, hlo, hfull, empty]
  keep j hj := by
    rw [loWithBuf, hb.keep]
    exact decide_eq_false (by omega)
  data := hb.data
  free hfree := by simpa [loWithBuf, hlo, empty] using hfree

end Join

/-! ## Pairs of frames -/

/-- The frames at the inputs, and what became of them: `bs` and `ts` are the frames of complete
pairs, `gs` those that were made of them; `buf` is the next frame of the buffer, `tcur` and
`gcur` are beginnings of frames. -/
structure Follows (bs : List (Beat w k)) (buf : Option (Beat w k)) (ts : List (List (Beat sw sk)))
    (tcur : List (Beat sw sk)) (gs : List (List (Beat w k))) (gcur : List (Beat w k))
    (left : List (BitVec 8)) : Prop where
  length : bs.length = ts.length
  single : ∀ b ∈ bs ++ buf.toList, b.tlast
  complete : ∀ t ∈ ts, Complete tlast t
  begun : ∀ b ∈ tcur, ¬ b.tlast
  outComplete : ∀ g ∈ gs, Complete tlast g
  outBegun : ∀ b ∈ gcur, ¬ b.tlast
  kept : gs.map keptOf = List.zipWith (fun b t => b.kept ++ keptOf t) bs ts
  idle : buf = none → tcur = [] ∧ gcur = []
  left : ∀ b ∈ buf, b.kept ++ keptOf tcur = keptOf gcur ++ left

section Pairs

variable {bs gcur : List (Beat w k)} {buf : Option (Beat w k)} {ts : List (List (Beat sw sk))}
  {tcur : List (Beat sw sk)} {gs : List (List (Beat w k))} {left left' : List (BitVec 8)}
  {a : Beat w k} {b : Beat sw sk}

/-- Without a frame of the buffer nothing is left. -/
theorem Follows.of_left (h : Follows bs buf ts tcur gs gcur left)
    (hleft : buf.isSome → left = left') : Follows bs buf ts tcur gs gcur left' :=
  { h with left := fun b hb => by rw [← hleft (Option.isSome_of_mem hb), h.left b hb] }

/-- A frame of the buffer comes in. -/
theorem Follows.start (h : Follows bs none ts tcur gs gcur left) (ha : a.tlast) :
    Follows bs (some a) ts [] gs [] a.kept where
  length := h.length
  single := forall_mem_concat (fun b hb => h.single b (by simpa using hb)) ha
  complete := h.complete
  begun := forall_mem_nil _
  outComplete := h.outComplete
  outBegun := forall_mem_nil _
  kept := h.kept
  idle := nofun
  left b hb := by
    cases hb
    simp [keptOf]

section

variable (h : Follows bs (some a) ts tcur gs gcur left)
include h

variable {out : Beat w k}

theorem Follows.kept_concat (hkept : left ++ b.kept = out.kept ++ left') :
    a.kept ++ keptOf (tcur ++ [b]) = keptOf (gcur ++ [out]) ++ left' := by
  rw [Extract.keptOf_concat, Extract.keptOf_concat, ← append_assoc, h.left a rfl,
    append_assoc, hkept, append_assoc]

/-- A beat of the struct that is not its last one. -/
theorem Follows.middle (hb : ¬ b.tlast) (hout : ¬ out.tlast)
    (hkept : left ++ b.kept = out.kept ++ left') :
    Follows bs (some a) ts (tcur ++ [b]) gs (gcur ++ [out]) left' where
  length := h.length
  single := h.single
  complete := h.complete
  begun := forall_mem_concat h.begun hb
  outComplete := h.outComplete
  outBegun := forall_mem_concat h.outBegun hout
  kept := h.kept
  idle := nofun
  left a' ha' := by
    cases ha'
    exact h.kept_concat hkept

/-- The pair is complete, with the frame `gcur ++ [out]` at the output. -/
theorem Follows.finish (hb : b.tlast) {g : List (Beat w k)} (hg : Complete tlast g)
    (hkept : a.kept ++ keptOf (tcur ++ [b]) = keptOf g) :
    Follows (bs ++ [a]) none (ts ++ [tcur ++ [b]]) [] (gs ++ [g]) [] left' where
  length := by rw [length_append, length_append, h.length]; rfl
  single b hb := h.single b (by simpa using hb)
  complete := forall_mem_concat h.complete (Complete.concat h.begun hb)
  begun := forall_mem_nil _
  outComplete := forall_mem_concat h.outComplete hg
  outBegun := forall_mem_nil _
  kept := by
    rw [map_append, h.kept, zipWith_append h.length]
    simp [hkept]
  idle _ := ⟨rfl, rfl⟩
  left := nofun

end

end Pairs

/-! ## One cycle -/

/-- The shift register, the shift count and the pairs agree with what went through the
module. -/
structure Inv (bufs : List (Beat (8 * k) k)) (structs : List (Beat (8 * sk) sk))
    (outs : List (Beat (8 * k) k)) (s : Regs (8 * k) k) : Prop where
  shape : ∃ c, Shape c s.state s.hi s.lo ∧
    (s.state = .emitStruct → c < k ∧ s.structShiftCount.toNat = 8 * (k - c))
  pairs : ∃ bs buf ts tcur gs gcur, Follows bs buf ts tcur gs gcur (leftover s.hi s.lo) ∧
    (s.state = .emitStruct ↔ buf.isSome) ∧ bufs = bs ++ buf.toList ∧
    structs = ts.flatten ++ tcur ∧ outs ++ waiting s.hi = gs.flatten ++ gcur

section Cycle

variable {ifInputBuf : Bool} {s : Regs (8 * k) k} {i : Inputs (8 * k) k (8 * sk) sk}
  {bufs outs : List (Beat (8 * k) k)} {structs : List (Beat (8 * sk) sk)}

theorem sent_output : sent i (output ifInputBuf s i) =
      if i.ready && (wires ifInputBuf s i).1.valid then some (wires ifInputBuf s i).1.beat
      else none := by
  rw [sent, output]
  cases i.ready <;> rfl

variable {b : Beat (8 * k) k}

theorem structIn_of_bufIn (ifInputBuf : Bool) (hb : bufIn s i = some b) :
    s.state = .emitBuf ∧ s.lo.occupancy = false ∧ structIn ifInputBuf s i = none := by
  rw [bufIn, inbufReady] at hb
  rw [structIn, structReady]
  cases hst : s.state <;> cases hocc : s.lo.occupancy <;> simp_all

theorem ready_of_structIn {b : Beat (8 * sk) sk} (hb : structIn ifInputBuf s i = some b) :
    s.state = .emitStruct ∧ s.lo.occupancy = false ∧ i.ready ∧ bufIn s i = none := by
  rw [structIn, structReady] at hb
  rw [bufIn, inbufReady]
  cases hst : s.state <;> cases hocc : s.lo.occupancy <;> cases hrdy : i.ready <;> simp_all

theorem Shape.lo_empty {c : Nat} {state : State} {hi lo : Slot w k} (h : Shape c state hi lo)
    (hfree : lo.occupancy = false) : lo = .empty := by
  cases h with
  | idle => rfl
  | ending => rfl
  | begun => rfl
  | behind _ _ hocc => rw [hfree] at hocc; cases hocc

/-- A frame of the buffer comes in. -/
theorem inv_buf (hk : 8 * k < 2 ^ k) (hk' : k < 2 ^ 10) (hinv : Inv bufs structs outs s)
    (hok : Short ifInputBuf s i) (hb : bufIn s i = some b) :
    Inv (bufs ++ [b]) structs (outs ++ (sent i (output ifInputBuf s i)).toList)
      (next ifInputBuf s i) := by
  obtain ⟨hst, hfree, hstruct⟩ := structIn_of_bufIn ifInputBuf hb
  obtain ⟨hlast, c, hc, hpacked, hroom⟩ := hok.buf b hb
  obtain ⟨hfull, hcnt⟩ := toNat_shiftCount hc hk hk' hpacked
  obtain ⟨⟨_, hshape, _⟩, bs, buf, ts, tcur, gs, gcur, hfol, hbuf, rfl, rfl, houts⟩ := hinv
  have hlo := hshape.lo_empty hfree
  have hleft := left_loWithBuf hlo hfull hpacked
  have hwires : wires ifInputBuf s i = (s.hi, loWithBuf s b) := by rw [wires, hb]
  obtain rfl : buf = none := by simpa [hst] using hbuf
  obtain ⟨rfl, rfl⟩ := hfol.idle rfl
  have hstart := hfol.start hlast
  have hnext : next ifInputBuf s i = ⟨.emitStruct, (shifted i.ready s.hi (loWithBuf s b)).1,
      (shifted i.ready s.hi (loWithBuf s b)).2, .ofNat k (8 * (k - countOneReg b.tkeep))⟩ := by
    simp only [next, stateNext, countNext, hwires, hst, hb, if_pos hlast, if_neg hfull]
  rw [sent_output, hwires, hnext]
  rw [hst, hlo] at hshape
  -- the frame moves up at once, unless the end of the last one is still there
  have hmoved : (s.hi.valid = false ∨ i.ready) ∧ shifted i.ready s.hi (loWithBuf s b) =
        (loWithBuf s b, .empty) ∨
      Ending s.hi ∧ i.ready = false ∧
        shifted i.ready s.hi (loWithBuf s b) = (s.hi, loWithBuf s b) := by
    cases hshape with
    | idle hocc hvalid => exact Or.inl ⟨Or.inl hvalid, by simp [shifted, hocc]⟩
    | ending hending =>
      cases hrdy : i.ready
      · exact Or.inr ⟨hending, rfl, by simp [shifted, hending.occupancy]⟩
      · exact Or.inl ⟨Or.inr rfl, by simp [shifted, hending.valid]⟩
  rcases hmoved with ⟨hsent, hshift⟩ | ⟨hending, hrdy, hshift⟩
  · rw [hshift]
    refine ⟨⟨c, .begun hleft, fun _ => ⟨hc, hcnt⟩⟩, bs, some b, ts, [], gs, [], ?_, by simp,
      by simp, rfl, ?_⟩
    · rw [leftover, hleft.valid]
      exact hstart
    · rw [waiting, hleft.valid, ← houts, waiting]
      rcases hsent with hvalid | hrdy
      · simp [hvalid]
      · cases hvalid : s.hi.valid <;> simp [hrdy]
  · have hocc : (loWithBuf s b).occupancy := by
      by_contra hocc
      have hzero := hleft.free (Bool.eq_false_iff.mpr hocc)
      have hc0 : c = 0 := by
        by_contra hpos
        have hbit := hpacked.keep 0
        rw [show b.tkeep = 0 from hzero, decide_eq_true (Nat.pos_of_ne_zero hpos)] at hbit
        simp at hbit
      rcases hroom hc0 with hidle | hroom
      · rw [hending.occupancy] at hidle
        cases hidle
      · rw [hrdy] at hroom
        cases hroom
    rw [hshift]
    refine ⟨⟨c, .behind hending hleft hocc, fun _ => ⟨hc, hcnt⟩⟩, bs, some b, ts, [], gs, [], ?_,
      by simp, by simp, rfl, ?_⟩
    · rw [leftover, if_pos hending.valid]
      exact hstart
    · rw [hrdy, ← houts]
      simp

/-- A beat of the struct comes in, and the upper word leaves. -/
theorem inv_struct (hsk : sk ≤ k) (hinv : Inv bufs structs outs s)
    (hok : Short ifInputBuf s i) {b : Beat (8 * sk) sk} (hb : structIn ifInputBuf s i = some b) :
    Inv bufs (structs ++ [b]) (outs ++ (sent i (output ifInputBuf s i)).toList)
      (next ifInputBuf s i) := by
  obtain ⟨hst, hfree, hrdy, hnobuf⟩ := ready_of_structIn hb
  have hfirst := hok.struct b hb
  obtain ⟨⟨c, hshape, hcnt⟩, bs, buf, ts, tcur, gs, gcur, hfol, hbuf, rfl, rfl, houts⟩ :=
    hinv
  obtain ⟨hc, hcnt⟩ := hcnt hst
  have hlo := hshape.lo_empty hfree
  have hleft : Left c s.hi := by
    rw [hst, hlo] at hshape
    cases hshape with
    | begun hleft => exact hleft
    | behind _ _ hocc => cases hocc
  obtain ⟨a, rfl⟩ := Option.isSome_iff_exists.mp (hbuf.mp hst)
  have htmp := shiftKeepTmp_ne_zero hc hcnt hfirst
  have hvalid : (hiWithStruct s b).valid := by
    rw [hiWithStruct, decide_eq_true htmp, Bool.or_true]
  have hwires : wires ifInputBuf s i = (hiWithStruct s b, loWithStruct s b) := by
    rw [wires, hnobuf, hb]
  have hshift : shifted i.ready (hiWithStruct s b) (loWithStruct s b) =
      (loWithStruct s b, .empty) := by
    simp [shifted, hrdy, hvalid]
  have hnext : next ifInputBuf s i = ⟨if b.tlast then .emitBuf else .emitStruct,
      loWithStruct s b, .empty, s.structShiftCount⟩ := by
    simp only [next, stateNext, countNext, hwires, hshift, hst, hnobuf, hb]
  have hsent : sent i (output ifInputBuf s i) = some (hiWithStruct s b).beat := by
    rw [sent_output, hwires, hrdy, hvalid]
    rfl
  have hkept : leftover s.hi s.lo ++ b.kept =
      (hiWithStruct s b).beat.kept ++ (loWithStruct s b).beat.kept := by
    rw [leftover, hleft.valid, kept_struct hsk c b, kept_hiWithStruct hc hsk hleft hcnt,
      kept_loWithStruct hlo hcnt, append_assoc]
    rfl
  rw [waiting, hleft.valid] at houts
  have houts : outs = gs.flatten ++ gcur := by simpa using houts
  rw [hsent, hnext]
  cases hlast : b.tlast with
  | false =>
    have hleft' := left_loWithStruct hc hsk hlo hcnt hlast
    have hhilast : (hiWithStruct s b).last = false := by simp [hiWithStruct, hleft.last, hlast]
    refine ⟨⟨c, .begun hleft', fun _ => ⟨hc, hcnt⟩⟩, bs, some a, ts, tcur ++ [b], gs,
      gcur ++ [(hiWithStruct s b).beat], ?_, by simp, rfl, by simp, ?_⟩
    · rw [leftover, hleft'.valid]
      exact hfol.middle (by simp [hlast]) (by simp [beat, hhilast]) hkept
    · rw [waiting, hleft'.valid, houts]
      simp
  | true =>
    by_cases hrest : keepRest s b = 0
    · -- the struct ends in the upper word
      have hlocc : (loWithStruct s b).occupancy = false := by
        simp [loWithStruct, hrest, hlo, empty]
      have hlovalid : (loWithStruct s b).valid = false := by
        simp [loWithStruct, hrest, hlo, empty]
      have hlolast : (loWithStruct s b).last = false := by
        simp [loWithStruct, hrest, hlo, empty]
      have hlokept : (loWithStruct s b).beat.kept = [] := by
        have hkeep : (loWithStruct s b).keep = 0 := by simp [loWithStruct, hrest, hlo, empty]
        rw [beat, hkeep]
        exact kept_zero _
      have hhilast : (hiWithStruct s b).last := by
        rw [hiWithStruct, hlolast, hlast, decide_eq_true htmp]
        simp
      rw [hlokept] at hkept
      have hall := hfol.kept_concat hkept
      rw [append_nil] at hall
      refine
    ⟨⟨c, .idle hlocc hlovalid, fun h => by cases h⟩, bs ++ [a], none, ts ++ [tcur ++ [b]], [],
        gs ++ [gcur ++ [(hiWithStruct s b).beat]], [], ?_, by simp, by simp, by simp, ?_⟩
      · exact hfol.finish hlast (Complete.concat hfol.outBegun hhilast) hall
      · rw [waiting, hlovalid, houts]
        simp
    · -- the struct ends in the lower word
      have hrest' : decide (keepRest s b ≠ 0) = true := decide_eq_true hrest
      have hending : Ending (loWithStruct s b) :=
        ⟨by rw [loWithStruct, hrest', Bool.or_true],
          by rw [loWithStruct, hrest', hlast]; simp, by rw [loWithStruct, hrest', hlast]; simp⟩
      have hhilast : (hiWithStruct s b).last = false := by
        simp [hiWithStruct, hleft.last, hending.last]
      have hbegun : ∀ x ∈ gcur ++ [(hiWithStruct s b).beat], ¬ x.tlast :=
        forall_mem_concat hfol.outBegun (by simp [beat, hhilast])
      have hall := hfol.kept_concat hkept
      rw [← Extract.keptOf_concat] at hall
      refine ⟨⟨c, .ending hending, fun h => by cases h⟩, bs ++ [a], none, ts ++ [tcur ++ [b]], [],
        gs ++ [gcur ++ [(hiWithStruct s b).beat] ++ [(loWithStruct s b).beat]], [], ?_,
        by simp, by simp, by simp, ?_⟩
      · exact hfol.finish hlast (Complete.concat hbegun hending.last) hall
      · rw [waiting, if_pos hending.valid, houts]
        simp

/-- Nothing comes in; the end of a frame may leave. -/
theorem inv_idle (hinv : Inv bufs structs outs s) (hnobuf : bufIn s i = none)
    (hnostruct : structIn ifInputBuf s i = none) :
    Inv bufs structs (outs ++ (sent i (output ifInputBuf s i)).toList) (next ifInputBuf s i) := by
  obtain ⟨⟨c, hshape, hcnt⟩, bs, buf, ts, tcur, gs, gcur, hfol, hbuf, rfl, rfl, houts⟩ :=
    hinv
  have hwires : wires ifInputBuf s i = (s.hi, s.lo) := by rw [wires, hnobuf, hnostruct]
  have hnext : next ifInputBuf s i = ⟨s.state, (shifted i.ready s.hi s.lo).1,
      (shifted i.ready s.hi s.lo).2, s.structShiftCount⟩ := by
    simp only [next, stateNext, countNext, hwires, hnobuf, hnostruct]
    cases s.state <;> rfl
  obtain ⟨hshape', hwaiting, hleft⟩ := hshape.shifted_step i.ready
  rw [sent_output, hwires, hnext]
  refine ⟨⟨c, hshape', hcnt⟩, bs, buf, ts, tcur, gs, gcur, ?_, hbuf, rfl, rfl, ?_⟩
  · exact hfol.of_left fun hsome => hleft (hbuf.mpr hsome)
  · rw [append_assoc, ← hwaiting, houts]

end Cycle

/-! ## Runs -/

section Run

variable {ifInputBuf : Bool} {s : Regs (8 * k) k} {i : Inputs (8 * k) k (8 * sk) sk}
  {h : List (Inputs (8 * k) k (8 * sk) sk × Outputs (8 * k) k)}

theorem inv_step (hk : 8 * k < 2 ^ k) (hk' : k < 2 ^ 10) (hsk : sk ≤ k)
    (hinv : Inv (transfers acceptedBuf h)
      (transfers (acceptedStruct ifInputBuf) h) (transfers sent h) s)
    (hok : Short ifInputBuf s i) :
    let h' := h ++ [(i, output ifInputBuf s i)]
    Inv (transfers acceptedBuf h') (transfers (acceptedStruct ifInputBuf) h')
      (transfers sent h') (next ifInputBuf s i) := by
  simp only [transfers_concat]
  change Inv (_ ++ (bufIn s i).toList) (_ ++ (structIn ifInputBuf s i).toList) _ _
  cases hb : bufIn s i with
  | some b =>
    rw [(structIn_of_bufIn ifInputBuf hb).2.2, Option.toList_none, append_nil]
    exact inv_buf hk hk' hinv hok hb
  | none =>
    rw [Option.toList_none, append_nil]
    cases hstruct : structIn ifInputBuf s i with
    | some b => exact inv_struct hsk hinv hok hstruct
    | none =>
      rw [Option.toList_none, append_nil]
      exact inv_idle hinv hb hstruct

theorem inv_run (hk : 8 * k < 2 ^ k) (hk' : k < 2 ^ 10) (hsk : sk ≤ k)
    {inputs : List (Inputs (8 * k) k (8 * sk) sk)}
    (hok : (emit ifInputBuf (8 * k) k (8 * sk) sk).Along (Short ifInputBuf) inputs) :
    let h := (emit ifInputBuf (8 * k) k (8 * sk) sk).trace inputs
    Inv (transfers acceptedBuf h) (transfers (acceptedStruct ifInputBuf) h)
      (transfers sent h) ((emit ifInputBuf (8 * k) k (8 * sk) sk).run inputs) := by
  refine Circuit.invariant (P := fun h s => Inv (transfers acceptedBuf h)
    (transfers (acceptedStruct ifInputBuf) h) (transfers sent h) s) ?_
    (fun _ _ _ hinv hok => inv_step hk hk' hsk hinv hok) hok
  refine ⟨⟨0, .idle rfl rfl, nofun⟩, [], none, [], [], [], [], ?_, by simp [emit], rfl, rfl, rfl⟩
  exact ⟨rfl, nofun, nofun, nofun, nofun, nofun, rfl, fun _ => ⟨rfl, rfl⟩, nofun⟩

theorem joined_of_follows {bs gcur : List (Beat w k)} {buf : Option (Beat w k)}
    {ts : List (List (Beat sw sk))} {tcur : List (Beat sw sk)} {gs : List (List (Beat w k))}
    {left : List (BitVec 8)} (h : Follows bs buf ts tcur gs gcur left) :
    gs.map keptOf <+: joined (bs ++ buf.toList) (ts.flatten ++ tcur) := by
  rw [joined, frames_of_all_last h.single, frames_flatten_append h.complete, h.kept,
    map_append, zipWith_append (by rw [length_map, h.length]),
    zipWith_map_left]
  simp [keptOf]

/-- The frames that were sent are those of complete pairs. -/
theorem Inv.inOrder (hinv : Inv (transfers acceptedBuf h)
      (transfers (acceptedStruct ifInputBuf) h) (transfers sent h) s) :
    InOrder ifInputBuf h := by
  intro hfin
  obtain ⟨_, bs, buf, ts, tcur, gs, gcur, hfol, _, hbufs, hstrs, houts⟩ := hinv
  obtain ⟨m, heq⟩ := eq_flatten_take_of_finished hfol.outComplete hfol.outBegun
    ⟨_, houts⟩ hfin
  rw [heq, frames_flatten fun g hg => hfol.outComplete g (mem_of_mem_take hg),
    map_take, hbufs, hstrs]
  exact (List.take_prefix _ _).trans (joined_of_follows hfol)

/-- After a cycle without input nothing waits that could leave. -/
theorem Shape.rest_of_ready {c : Nat} {state : State} {hi lo : Slot w k} (h : Shape c state hi lo) :
    (shifted true hi lo).1.valid = false ∧ (shifted true hi lo).2.occupancy = false := by
  rw [Emit.shifted]
  cases h with
  | idle hocc _ => simp [hocc, empty]
  | ending hending => simp [hending.valid, empty]
  | begun hleft => cases hi.occupancy <;> simp [hleft.valid, empty]
  | behind hending hleft _ => simp [hending.valid, hleft.valid, empty]

theorem Inv.delivered (hinv : Inv (transfers acceptedBuf h)
      (transfers (acceptedStruct ifInputBuf) h) (transfers sent h) s)
    (hvalid : s.hi.valid = false) (hocc : s.lo.occupancy = false) : Delivered ifInputBuf h s := by
  obtain ⟨_, bs, buf, ts, tcur, gs, gcur, hfol, hbuf, hbufs, hstrs, houts⟩ := hinv
  have houts : transfers sent h = gs.flatten ++ gcur := by
    simpa [waiting, hvalid] using houts
  simp only [Delivered, hbufs, hstrs, houts]
  cases buf with
  | none =>
    -- all pairs are complete
    obtain ⟨rfl, rfl⟩ := hfol.idle rfl
    have hst : s.state = .emitBuf := by
      cases hst : s.state with
      | emitBuf => rfl
      | emitStruct => cases hbuf.mp hst
    have hframes := frames_flatten hfol.complete
    have hjoined : gs.map keptOf = joined (bs ++ []) (ts.flatten ++ []) := by
      rw [joined, append_nil, append_nil, hframes,
        frames_of_all_last (fun b hb => hfol.single b (mem_append_left _ hb)),
        hfol.kept, zipWith_map_left]
      simp [keptOf]
    rw [if_pos]
    · refine ⟨?_, ?_, by simp [inbufReady, hst, hocc]⟩
      · rw [append_nil, unfinished_flatten hfol.outComplete]
      · rw [append_nil, frames_flatten hfol.outComplete]
        exact hjoined
    · rw [append_nil, unfinished_flatten hfol.complete, hframes,
        frames_of_all_last hfol.single, length_map, Option.toList_none,
        append_nil]
      exact ⟨rfl, hfol.length⟩
  | some b =>
    rw [if_neg]
    · intro i hrdy
      simp [structReady, hbuf, hocc, hrdy]
    · rintro ⟨hfin, hlen⟩
      obtain rfl := eq_nil_of_finished hfol.begun (unfinished_of_append hfin)
      rw [append_nil, frames_flatten hfol.complete, frames_of_all_last hfol.single,
        length_map, length_append, hfol.length] at hlen
      simp at hlen

end Run

/-- In every run in which frames of the buffer are short, the frames that are sent are those of
the buffer followed by their structs, and after a cycle without input the next pair can come
in. -/
theorem emit_joins (ifInputBuf : Bool) (hk : 8 * k < 2 ^ k) (hk' : k < 2 ^ 10) (hsk : sk ≤ k)
    (inputs : List (Inputs (8 * k) k (8 * sk) sk))
    (hok : (emit ifInputBuf (8 * k) k (8 * sk) sk).Along (Short ifInputBuf) inputs) :
    let c := emit ifInputBuf (8 * k) k (8 * sk) sk
    InOrder ifInputBuf (c.trace inputs) ∧
      ∀ i, Quiet i → Delivered ifInputBuf (c.trace (inputs ++ [i])) (c.run (inputs ++ [i])) := by
  intro c
  have hinv := inv_run hk hk' hsk hok
  refine ⟨hinv.inOrder, fun i hquiet => ?_⟩
  obtain ⟨hinbuf, hstruct, hrdy⟩ := hquiet
  have hnobuf : bufIn (c.run inputs) i = none := by rw [bufIn, hinbuf, ite_self]
  have hnostruct : structIn ifInputBuf (c.run inputs) i = none := by
    rw [structIn, hstruct, Option.map_none, ite_self]
  have hshort : Short ifInputBuf (c.run inputs) i :=
    ⟨by rw [hnobuf]; exact nofun, by rw [hnostruct]; exact nofun⟩
  have hnext := inv_run hk hk' hsk (along_concat.mpr ⟨hok, hshort⟩)
  obtain ⟨⟨_, hshape, _⟩, _⟩ := hinv
  obtain ⟨hvalid, hocc⟩ := hshape.rest_of_ready
  have hwires : wires ifInputBuf (c.run inputs) i = ((c.run inputs).hi, (c.run inputs).lo) := by
    rw [wires, hnobuf, hnostruct]
  refine hnext.delivered ?_ ?_
  · rw [run_concat]
    change (next ifInputBuf (c.run inputs) i).hi.valid = false
    rw [next, hwires, hrdy]
    exact hvalid
  · rw [run_concat]
    change (next ifInputBuf (c.run inputs) i).lo.occupancy = false
    rw [next, hwires, hrdy]
    exact hocc

/-- Three bytes of a buffer and a struct of two bytes. -/
theorem emit_joins_five_bytes :
    let i : Inputs (8 * 8) 8 (8 * 2) 2 := ⟨some ⟨0x030201, 7, true⟩, none, true⟩
    let j : Inputs (8 * 8) 8 (8 * 2) 2 := ⟨none, some ⟨0x0504, 0, false⟩, true⟩
    let c := emit false (8 * 8) 8 (8 * 2) 2
    transfers sent (c.trace [i, j]) = [⟨0x0504030201, 31, true⟩] ∧ InOrder false (c.trace [i, j]) ∧
      ∀ i', Quiet i' → Delivered false (c.trace ([i, j] ++ [i'])) (c.run ([i, j] ++ [i'])) := by
  intro i j c
  have hpacked : Packed 3 (⟨0x030201, 7, true⟩ : Beat (8 * 8) 8) := by
    have hkeep : ∀ n < 8, (7 : BitVec 8).getLsbD n = decide (n < 3) := by decide
    have hdata : ∀ n < 64, 24 ≤ n → (0x030201 : BitVec 64).getLsbD n = false := by decide
    constructor
    · intro n
      rcases Nat.lt_or_ge n 8 with hn | hn
      · exact hkeep n hn
      · rw [BitVec.getLsbD_of_ge _ _ hn, decide_eq_false (by omega)]
    · intro n hn
      rcases Nat.lt_or_ge n 64 with hlt | hge
      · exact hdata n hlt hn
      · exact BitVec.getLsbD_of_ge _ _ hge
  have hok : c.Along (Short false) ([] ++ [i] ++ [j]) := by
    rw [along_concat, along_concat]
    refine ⟨⟨along_nil _, ?_, ?_⟩, ?_, ?_⟩
    · rintro b hb
      cases hb
      exact ⟨rfl, 3, by decide, hpacked, nofun⟩
    · exact nofun
    · exact nofun
    · rintro b hb
      cases hb
      decide
  exact ⟨by decide, emit_joins false (by decide) (by decide) (by decide) [i, j] hok⟩

/-- A frame of the buffer that is one full beat is sent on its own, and the struct after it. -/
theorem emit_splits :
    let i : Inputs (8 * 8) 8 (8 * 8) 8 := ⟨some ⟨0x0807060504030201, 255, true⟩, none, true⟩
    let j : Inputs (8 * 8) 8 (8 * 8) 8 := ⟨none, some ⟨0x09, 1, true⟩, true⟩
    let o : Inputs (8 * 8) 8 (8 * 8) 8 := ⟨none, none, true⟩
    let h := (emit true (8 * 8) 8 (8 * 8) 8).trace [i, o, j, o, o]
    joined (transfers acceptedBuf h) (transfers (acceptedStruct true) h) =
        [[1, 2, 3, 4, 5, 6, 7, 8, 9]] ∧
      transfers sent h = [⟨0x0807060504030201, 255, true⟩, ⟨0x09, 1, true⟩] ∧
      ¬ InOrder true h := by
  intro i j o h
  have hjoined : joined (transfers acceptedBuf h)
      (transfers (acceptedStruct true) h) = [[1, 2, 3, 4, 5, 6, 7, 8, 9]] := by decide
  have hsent : transfers sent h = [⟨0x0807060504030201, 255, true⟩, ⟨0x09, 1, true⟩] := by decide
  refine ⟨hjoined, hsent, fun hord => ?_⟩
  have hpre := hord (by rw [hsent]; rfl)
  rw [hjoined, hsent] at hpre
  exact absurd hpre.length_le (by decide)

end Alkali.Fpga.Emit
