import Alkali.Fpga.Guard
import Alkali.Library.KeptBytes

/-!
# The module `extract`

`extract` takes a struct from the front of each frame of a buffer. A shift register of two
words joins what is left of a beat with the front of the next one. Both outputs go through an
`axis_register`. The struct is offered to its register as soon as a frame waits at the input,
also while the shift register is full and the frame cannot come in.
-/

namespace Alkali.Fpga

open Synchronous KeptBytes List Circuit Beat

variable {w k : Nat}

/-- The kept bytes of a beat. -/
def Beat.kept (b : Beat w k) : List (BitVec 8) := KeptBytes.kept b.tdata b.tkeep

/-- The kept bytes of a frame. -/
def keptOf (f : List (Beat w k)) : List (BitVec 8) := f.flatMap kept

/-- One of the two words of a shift register. -/
structure Slot (w k : Nat) where
  data : BitVec w
  keep : BitVec k
  valid : Bool
  last : Bool
  occupancy : Bool

open Slot

namespace Slot

def empty : Slot w k := ⟨0, 0, false, false, false⟩

/-- The word as a beat of the output. -/
def beat (s : Slot w k) : Beat w k := ⟨s.data, s.keep, s.last⟩

end Slot

namespace Extract

inductive State
  | extract | forward
  deriving DecidableEq, Repr

/-- The registers: the words `hi` and `lo` of the shift register, and the contents of the two
output registers. -/
structure Regs (w k n : Nat) where
  state : State
  hi : Slot w k
  lo : Slot w k
  outbuf : List (Beat w k)
  extracted : List (BitVec n)

/-- What an `axis_register` does in a cycle, and the ready signal at its output. -/
structure Sink where
  accepts : Bool
  shows : Bool
  ready : Bool

/-- `s_inbuf_axis` and the two output registers. -/
structure Inputs (w k : Nat) where
  axis : Option (Beat w k)
  outbuf : Sink
  extracted : Sink

structure Outputs (w k n : Nat) where
  tready : Bool
  outbuf : Option (Beat w k)
  extracted : Option (BitVec n)

variable {n : Nat}

section Signals

variable (s : Regs w k n) (i : Inputs w k)

/-- `s_inbuf_axis_tready`. -/
def tready : Bool :=
  match s.state with
  | .extract => i.extracted.accepts && !s.lo.occupancy
  | .forward => !s.lo.occupancy

/-- The beat that comes in. -/
def beatIn : Option (Beat w k) := if tready s i then i.axis else none

/-- `reg_extracted_axis`: valid although the beat may not come in. -/
def struct : Option (BitVec n) :=
  if s.state = .extract ∧ i.axis.isSome then
    some ((beatIn s i).elim 0 fun b => b.tdata.setWidth n)
  else none

/-- The lower word with what is left of a beat. -/
def loWith (b : Beat w k) (data : BitVec w) (keep : BitVec k) : Slot w k where
  data := data ||| b.tdata >>> n
  keep := keep ||| b.tkeep >>> (n / 8)
  valid := s.lo.valid || b.tlast
  last := s.lo.last || b.tlast
  occupancy := true

/-- `shift_wire` and the wires that go with it: the first beat of a frame overwrites the lower
word, others also fill the upper one. -/
def wires : Slot w k × Slot w k :=
  match s.state, beatIn s i with
  | .extract, some b => (s.hi, loWith s b 0 0)
  | .forward, some b =>
    ({ s.hi with data := putHigh n s.hi.data b.tdata, keep := putHigh (n / 8) s.hi.keep b.tkeep,
                 valid := true },
      loWith s b s.lo.data s.lo.keep)
  | _, none => (s.hi, s.lo)

/-- The beat that goes to the output register. -/
def beatOut (hi : Slot w k) : Option (Beat w k) :=
  if i.outbuf.accepts && hi.valid then some hi.beat else none

/-- The shift register after the cycle. -/
def shifted (hi lo : Slot w k) : Slot w k × Slot w k :=
  if !s.hi.occupancy || (beatOut i hi).isSome then (lo, .empty) else (hi, lo)

def stateNext : State :=
  match s.state, beatIn s i with
  | .extract, some b => if b.tlast then .extract else .forward
  | .forward, some b => if b.tlast then .extract else .forward
  | state, none => state

def output : Outputs w k n where
  tready := tready s i
  outbuf := Fifo.front i.outbuf.shows s.outbuf
  extracted := Fifo.front i.extracted.shows s.extracted

def next : Regs w k n where
  state := stateNext s i
  hi := (shifted s i (wires s i).1 (wires s i).2).1
  lo := (shifted s i (wires s i).1 (wires s i).2).2
  outbuf := Fifo.next i.outbuf.shows i.outbuf.ready s.outbuf (beatOut i (wires s i).1)
  extracted := Fifo.next i.extracted.shows i.extracted.ready s.extracted
    (if i.extracted.accepts then struct s i else none)

end Signals

/-- The module `extract` with the parameters `BUF_DATA_WIDTH`, `BUF_KEEP_WIDTH` and
`EXTRACTED_STRUCT_WIDTH`. -/
def extract (w k n : Nat) : Circuit (Regs w k n) (Inputs w k) (Outputs w k n) where
  init := ⟨.extract, .empty, .empty, [], []⟩
  output := output
  next := next

/-! ## What the module is for -/

variable (i : Inputs w k) (o : Outputs w k n)

def accepted : Option (Beat w k) :=
  if o.tready then i.axis else none

def sentBuf : Option (Beat w k) :=
  if i.outbuf.ready then o.outbuf else none

def sentStruct : Option (BitVec n) :=
  if i.extracted.ready then o.extracted else none

/-- The first bits of a frame. -/
def structOf (n : Nat) (f : List (Beat w k)) : BitVec n :=
  f.head?.elim 0 fun b => b.tdata.setWidth n

variable (e : Nat) (h : List (Inputs w k × Outputs w k n))

/-- Structs and frames come in the order of the frames at the input. -/
def InOrder : Prop :=
  let ins := transfers accepted h
  let outs := transfers sentBuf h
  transfers sentStruct h <+: (frames tlast ins).map (structOf n) ∧
    (unfinished tlast outs = false → (frames tlast outs).map keptOf <+:
        (frames tlast ins).map fun f => (keptOf f).drop e)

/-- Each frame has given one struct and, if it is complete, one frame. -/
def Delivered : Prop :=
  let ins := transfers accepted h
  transfers sentStruct h = (frames tlast ins).map (structOf n) ∧
    (unfinished tlast ins = false → (frames tlast (transfers sentBuf h)).map keptOf =
        (frames tlast ins).map fun f => (keptOf f).drop e)

/-- A cycle without input in which nothing stalls. -/
def Quiet : Prop :=
  i.axis = none ∧ i.outbuf = ⟨true, true, true⟩ ∧ i.extracted = ⟨true, true, true⟩

/-- No frame waits at a full shift register while its struct could leave, and the first beat
of a frame holds the struct. -/
structure Unstalled (s : Regs w k n) (i : Inputs w k) : Prop where
  free : s.state = .extract → i.axis.isSome → i.extracted.accepts → s.lo.occupancy = false
  long : s.state = .extract → ∀ b ∈ beatIn s i, ∀ j < e, b.tkeep.getLsbD j

/-! ## The shift register -/

/-- What is left of a beat is in the lower bytes of its word. -/
def Low (slot : Slot w k) : Prop := ∀ j, k - e ≤ j → slot.keep.getLsbD j = false

/-- The last word of a frame, or what is left of a beat in the middle of one. -/
inductive Tail (e : Nat) : State → Slot w k → Prop
  | ending {slot : Slot w k} (occupancy : slot.occupancy) (valid : slot.valid)
      (last : slot.last) : Tail e .extract slot
  | begun {slot : Slot w k} (occupancy : slot.occupancy) (valid : slot.valid = false)
      (last : slot.last = false) (low : Low e slot) : Tail e .forward slot

/-- The words of the shift register: nothing, a tail, or a word that can leave and a tail. -/
inductive Shape (e : Nat) : State → Slot w k → Slot w k → Prop
  | idle {hi : Slot w k} (occupancy : hi.occupancy = false) (valid : hi.valid = false) :
      Shape e .extract hi .empty
  | one {state : State} {hi : Slot w k} (tail : Tail e state hi) : Shape e state hi .empty
  | two {state : State} {hi lo : Slot w k} (occupancy : hi.occupancy) (valid : hi.valid)
      (tail : Tail e state lo) : Shape e state hi lo

theorem Shape.lo_empty {e : Nat} {state : State} {hi lo : Slot w k} (h : Shape e state hi lo)
    (hfree : lo.occupancy = false) : lo = .empty := by
  cases h with
  | idle => rfl
  | one => rfl
  | two _ _ htail => cases htail <;> simp_all

/-- The words in the middle of a cycle: a tail may be below nothing. -/
def Wires (state : State) (hi lo : Slot w k) : Prop :=
  Shape e state hi lo ∨ hi.occupancy = false ∧ hi.valid = false ∧ Tail e state lo

variable (hi lo : Slot w k)

/-- The beats that wait in the shift register. -/
def waiting : List (Beat w k) :=
  (if hi.valid then [hi.beat] else []) ++ if lo.valid then [lo.beat] else []

theorem waiting_eq : waiting hi lo = waiting hi .empty ++ if lo.valid then [lo.beat] else [] := by
  simp [waiting, empty]

/-- The bytes that wait for the next beat. -/
def leftover : List (BitVec 8) :=
  (if hi.occupancy && !hi.valid then hi.beat.kept else []) ++
    if lo.occupancy && !lo.valid then lo.beat.kept else []

section Shift

variable {e : Nat} {state : State} {s : Regs w k n} {hi lo : Slot w k}

/-- What the second half of a cycle does: a word may leave, and then the others move up. -/
theorem shifted_of_shape (i : Inputs w k) (hocc : s.hi.occupancy = hi.occupancy)
    (h : Wires e state hi lo) :
    let next := shifted s i hi lo
    Shape e state next.1 next.2 ∧ waiting hi lo = (beatOut i hi).toList ++ waiting next.1 next.2 ∧
      leftover hi lo = leftover next.1 next.2 := by
  rw [shifted, hocc, beatOut]
  rcases h with h | ⟨hocc, hvalid, htail⟩
  · cases h with
    | idle hocc hvalid =>
      simp only [hocc, hvalid]
      refine ⟨?_, ?_, ?_⟩
      · simpa using Shape.idle rfl rfl
      · simp [waiting, hvalid, empty]
      · simp [leftover, hocc, empty]
    | one htail =>
      cases htail with
      | ending hocc hvalid hlast =>
        cases haccepts : i.outbuf.accepts
        · simp only [hocc, hvalid]
          simpa using Shape.one (.ending hocc hvalid hlast)
        · simp only [hocc, hvalid]
          refine ⟨by simpa using Shape.idle rfl rfl, ?_, ?_⟩
          · simp [waiting, hvalid, empty]
          · simp [leftover, hvalid, empty]
      | begun hocc hvalid hlast hlow =>
        simp only [hocc, hvalid]
        simpa using Shape.one (.begun hocc hvalid hlast hlow)
    | two hocc hvalid htail =>
      cases haccepts : i.outbuf.accepts
      · simp only [hocc, hvalid]
        simpa using Shape.two hocc hvalid htail
      · simp only [hocc, hvalid]
        refine ⟨by simpa using Shape.one htail, ?_, ?_⟩
        · simp [waiting, hvalid, empty]
        · simp [leftover, hvalid, empty]
  · simp only [hocc, hvalid]
    refine ⟨by simpa using Shape.one htail, ?_, ?_⟩
    · simp [waiting, hvalid, empty]
    · simp [leftover, hocc, empty]

end Shift

/-! ## One cycle -/

/-- The frames at the input, and what became of them: `fs` and `gs` are complete frames at the
input and the output, `cur` and `gcur` the beginnings of some. -/
structure Follows (fs : List (List (Beat w k))) (cur : List (Beat w k))
    (gs : List (List (Beat w k))) (gcur : List (Beat w k)) (state : State)
    (left : List (BitVec 8)) : Prop where
  complete : ∀ f ∈ fs, Complete tlast f
  begun : ∀ b ∈ cur, ¬ b.tlast
  outComplete : ∀ g ∈ gs, Complete tlast g
  outBegun : ∀ b ∈ gcur, ¬ b.tlast
  kept : gs.map keptOf = fs.map fun f => (keptOf f).drop e
  inFrame : state = .forward ↔ cur ≠ []
  done : state = .extract → gcur = []
  long : state = .forward → e ≤ (keptOf cur).length
  left : state = .forward → (keptOf cur).drop e = keptOf gcur ++ left

/-- The structs of complete frames and of the beginning of one. -/
def structs (n : Nat) (fs : List (List (Beat w k))) (cur : List (Beat w k)) : List (BitVec n) :=
  fs.map (structOf n) ++ (cur.head?.map fun b => b.tdata.setWidth n).toList

section Cycle

variable {e : Nat} {fs gs : List (List (Beat w k))} {cur gcur : List (Beat w k)}
  {left : List (BitVec 8)} {b : Beat w k}

theorem keptOf_concat (f : List (Beat w k)) (b : Beat w k) :
    keptOf (f ++ [b]) = keptOf f ++ b.kept := by
  simp [keptOf]

variable {out : Beat w k}

/-- A frame is complete. -/
theorem Follows.frame {state : State} (h : Follows e fs cur gs gcur state left)
    {f g : List (Beat w k)} (hf : Complete tlast f) (hg : Complete tlast g)
    (hkept : keptOf g = (keptOf f).drop e) {left' : List (BitVec 8)} :
    Follows e (fs ++ [f]) [] (gs ++ [g]) [] .extract left' where
  complete := forall_mem_concat h.complete hf
  begun := forall_mem_nil _
  outComplete := forall_mem_concat h.outComplete hg
  outBegun := forall_mem_nil _
  kept := by rw [map_append, map_append, h.kept, map_singleton, map_singleton, hkept]
  inFrame := by simp
  done _ := rfl
  long := nofun
  left := nofun

/-- The first beat of several. -/
theorem Follows.start (h : Follows e fs cur gs gcur .extract left) (hb : ¬ b.tlast)
    (hlong : e ≤ b.kept.length) : Follows e fs [b] gs [] .forward (b.kept.drop e) where
  complete := h.complete
  begun := by simpa using hb
  outComplete := h.outComplete
  outBegun := forall_mem_nil _
  kept := h.kept
  inFrame := by simp
  done := nofun
  long _ := by simpa [keptOf] using hlong
  left _ := by simp [keptOf]

theorem Follows.drop_concat (h : Follows e fs cur gs gcur .forward left) {rest : List (BitVec 8)}
    (hkept : left ++ b.kept = out.kept ++ rest) :
    (keptOf (cur ++ [b])).drop e = keptOf (gcur ++ [out]) ++ rest := by
  rw [keptOf_concat, drop_append_of_le_length (h.long rfl), h.left rfl, keptOf_concat,
    append_assoc, hkept, append_assoc]

/-- A beat in the middle of a frame. -/
theorem Follows.middle (h : Follows e fs cur gs gcur .forward left) (hb : ¬ b.tlast)
    (hout : ¬ out.tlast) {rest : List (BitVec 8)} (hkept : left ++ b.kept = out.kept ++ rest) :
    Follows e fs (cur ++ [b]) gs (gcur ++ [out]) .forward rest where
  complete := h.complete
  begun := forall_mem_concat h.begun hb
  outComplete := h.outComplete
  outBegun := forall_mem_concat h.outBegun hout
  kept := h.kept
  inFrame := by simp
  done := nofun
  long _ := by
    rw [keptOf_concat, length_append]
    exact (h.long rfl).trans (Nat.le_add_right _ _)
  left _ := h.drop_concat hkept

/-- What came in, the structs that were made of it, and the beats that left the shift register
and that wait in it. -/
def Tracks (e : Nat) (ins : List (Beat w k)) (toks : List (BitVec n)) (pushed : List (Beat w k))
    (state : State) (hi lo : Slot w k) : Prop :=
  ∃ fs cur gs gcur, Follows e fs cur gs gcur state (leftover hi lo) ∧ ins = fs.flatten ++ cur ∧
    toks = structs n fs cur ∧ pushed ++ waiting hi lo = gs.flatten ++ gcur

theorem structs_finish (hcur : cur ≠ []) :
    structs n (fs ++ [cur ++ [b]]) [] = structs n fs cur := by
  cases cur with
  | nil => exact absurd rfl hcur
  | cons x xs => simp [structs, structOf]

theorem structs_middle (hcur : cur ≠ []) : structs n fs (cur ++ [b]) = structs n fs cur := by
  cases cur with
  | nil => exact absurd rfl hcur
  | cons x xs => rfl

end Cycle

section Accept

variable {e : Nat} {s : Regs (8 * k) k (8 * e)} {i : Inputs (8 * k) k} {b : Beat (8 * k) k}
  {ins pushed : List (Beat (8 * k) k)} {toks : List (BitVec (8 * e))}

theorem lo_free_of_beatIn (hb : beatIn s i = some b) : s.lo.occupancy = false := by
  rw [beatIn, tready] at hb
  cases hst : s.state <;> cases hocc : s.lo.occupancy <;> simp_all

theorem kept_loWith (he : e ≤ k) (s : Regs (8 * k) k (8 * e)) (b : Beat (8 * k) k) :
    (loWith s b 0 0).beat.kept = keptIn b.tdata b.tkeep e (k - e) := by
  rw [← kept_ushiftRight _ _ he, loWith, Nat.mul_div_cancel_left e (by decide)]
  simp [beat, Beat.kept]

theorem kept_drop_of_long (he : e ≤ k) (hlong : ∀ j < e, b.tkeep.getLsbD j) :
    b.kept.drop e = keptIn b.tdata b.tkeep e (k - e) ∧ e ≤ b.kept.length := by
  have hlen : (keptIn b.tdata b.tkeep 0 e).length = e :=
    length_keptIn_of_all fun j hj => by rw [Nat.zero_add]; exact hlong j hj
  rw [Beat.kept, kept_split _ _ he]
  exact ⟨drop_left' hlen, by simp [hlen]⟩

theorem tail_loWith (he : e ≤ k) (hlo : s.lo = .empty) (b : Beat (8 * k) k) :
    Tail e (if b.tlast then .extract else .forward) (loWith s b 0 0) := by
  cases hlast : b.tlast with
  | true => exact .ending rfl (by simp [loWith, hlast]) (by simp [loWith, hlast])
  | false =>
    refine .begun rfl (by simp [loWith, hlo, hlast, empty])
      (by simp [loWith, hlo, hlast, empty]) fun j hj => ?_
    have hge : k ≤ e + j := by omega
    rw [loWith, Nat.mul_div_cancel_left e (by decide)]
    simp [BitVec.getLsbD_of_ge b.tkeep _ hge]

theorem stateNext_of_beatIn (hb : beatIn s i = some b) :
    stateNext s i = if b.tlast then .extract else .forward := by
  rw [stateNext, hb]
  cases s.state <;> rfl

/-- The first beat of a frame comes in. -/
theorem accept_extract (he : e ≤ k) (hst : s.state = .extract)
    (hshape : Shape e .extract s.hi s.lo) (htracks : Tracks e ins toks pushed .extract s.hi s.lo)
    (hlong : ∀ j < e, b.tkeep.getLsbD j) (hb : beatIn s i = some b) :
    Wires e (stateNext s i) (wires s i).1 (wires s i).2 ∧
      Tracks e (ins ++ [b]) (toks ++ [b.tdata.setWidth (8 * e)]) pushed (stateNext s i)
        (wires s i).1 (wires s i).2 := by
  obtain ⟨fs, cur, gs, gcur, hfol, rfl, rfl, houts⟩ := htracks
  obtain rfl : cur = [] := by
    by_contra hne
    cases hfol.inFrame.mpr hne
  obtain rfl := hfol.done rfl
  have hlo := hshape.lo_empty (lo_free_of_beatIn hb)
  have hwires : wires s i = (s.hi, loWith s b 0 0) := by rw [wires, hst, hb]
  have htail := tail_loWith he hlo b
  have hkept := kept_loWith he s b
  obtain ⟨hdrop, hlen⟩ := kept_drop_of_long he hlong
  rw [hwires, stateNext_of_beatIn hb]
  rw [hlo] at hshape houts
  have hhi : (s.hi.occupancy && !s.hi.valid) = false := by
    cases hshape with
    | idle hocc _ => simp [hocc]
    | one hone => cases hone with | ending _ hvalid _ => simp [hvalid]
    | two _ hvalid _ => simp [hvalid]
  constructor
  · -- the upper word is free or can leave
    cases hshape with
    | idle hocc hvalid => exact Or.inr ⟨hocc, hvalid, htail⟩
    | one hone => cases hone with | ending hocc hvalid _ => exact Or.inl (.two hocc hvalid htail)
    | two _ _ hemp => cases hemp; simp_all [empty]
  · cases hlast : b.tlast with
    | true =>
      have hvalid : (loWith s b 0 0).valid := by simp [loWith, hlast]
      refine ⟨fs ++ [[b]], [], gs ++ [[(loWith s b 0 0).beat]], [], ?_, by simp, ?_, ?_⟩
      · exact hfol.frame (.concat (forall_mem_nil _) hlast)
          (.concat (forall_mem_nil _) (by simp [beat, loWith, hlast]))
          (by simpa [keptOf] using hkept.trans hdrop.symm)
      · simp [structs, structOf]
      · rw [waiting_eq, if_pos hvalid, ← append_assoc, houts]
        simp
    | false =>
      have hvalid : (loWith s b 0 0).valid = false := by simp [loWith, hlast, hlo, empty]
      have hleft : leftover s.hi (loWith s b 0 0) = b.kept.drop e := by
        rw [hdrop, ← hkept, leftover, hhi, hvalid]
        rfl
      refine ⟨fs, [b], gs, [], ?_, by simp, by simp [structs], ?_⟩
      · rw [hleft]
        exact hfol.start (by simp [hlast]) hlen
      · rw [waiting_eq, hvalid, ← append_assoc, houts]
        simp

/-- A later beat of a frame comes in. -/
theorem accept_forward (he : e ≤ k) (hst : s.state = .forward)
    (hshape : Shape e .forward s.hi s.lo) (htracks : Tracks e ins toks pushed .forward s.hi s.lo)
    (hb : beatIn s i = some b) :
    Wires e (stateNext s i) (wires s i).1 (wires s i).2 ∧
      Tracks e (ins ++ [b]) toks pushed (stateNext s i) (wires s i).1 (wires s i).2 := by
  obtain ⟨fs, cur, gs, gcur, hfol, rfl, rfl, houts⟩ := htracks
  have hcur := hfol.inFrame.mp rfl
  have hlo := hshape.lo_empty (lo_free_of_beatIn hb)
  obtain ⟨hocc, hvalid, hlasthi, hlow⟩ : s.hi.occupancy ∧ s.hi.valid = false ∧
      s.hi.last = false ∧ Low e s.hi := by
    rw [hlo] at hshape
    cases hshape with
    | one hone =>
      cases hone with | begun hocc hvalid hlast hlow => exact ⟨hocc, hvalid, hlast, hlow⟩
    | two _ _ hemp => cases hemp; simp_all [empty]
  let hi : Slot (8 * k) k := { s.hi with
    data := putHigh (8 * e) s.hi.data b.tdata, keep := putHigh e s.hi.keep b.tkeep, valid := true }
  have hwires : wires s i = (hi, loWith s b 0 0) := by
    rw [wires, hst, hb, hlo, Nat.mul_div_cancel_left e (by decide)]
    rfl
  have hkept : leftover s.hi s.lo ++ b.kept = hi.beat.kept ++ (loWith s b 0 0).beat.kept := by
    have hleft : leftover s.hi s.lo = keptIn s.hi.data s.hi.keep 0 (k - e) := by
      rw [leftover, hocc, hvalid, hlo, ← kept_of_low (Nat.sub_le k e) hlow]
      simp [empty, beat, Beat.kept]
    rw [hleft, kept_loWith he, Beat.kept, kept_split _ _ he, ← append_assoc]
    exact congrArg (· ++ _) (kept_putHigh _ _ _ _ he).symm
  have htail := tail_loWith he hlo b
  have hwaiting : waiting s.hi s.lo = [] := by simp [waiting, hvalid, hlo, empty]
  rw [hwaiting, append_nil] at houts
  rw [hwires, stateNext_of_beatIn hb]
  refine ⟨Or.inl (.two hocc rfl htail), ?_⟩
  cases hlast : b.tlast with
  | true =>
    have hlovalid : (loWith s b 0 0).valid := by simp [loWith, hlast]
    refine ⟨fs ++ [cur ++ [b]], [], gs ++ [gcur ++ [hi.beat] ++ [(loWith s b 0 0).beat]], [],
      ?_, by simp, (structs_finish hcur).symm, ?_⟩
    · refine hfol.frame (.concat hfol.begun hlast) (.concat (forall_mem_concat
        hfol.outBegun (by simp [hi, beat, hlasthi]))
        (by simp [beat, loWith, hlast])) ?_
      rw [hfol.drop_concat hkept, keptOf_concat]
    · rw [waiting_eq, if_pos hlovalid, houts]
      simp [waiting, hi, empty]
  | false =>
    have hlovalid : (loWith s b 0 0).valid = false := by simp [loWith, hlast, hlo, empty]
    have hleft : leftover hi (loWith s b 0 0) = (loWith s b 0 0).beat.kept := by
      rw [leftover, hlovalid]
      simp [hi, loWith]
    refine ⟨fs, cur ++ [b], gs, gcur ++ [hi.beat], ?_, by simp, (structs_middle hcur).symm, ?_⟩
    · rw [hleft]
      exact hfol.middle (by simp [hlast]) (by simp [hi, beat, hlasthi]) hkept
    · rw [waiting_eq, hlovalid, houts]
      simp [waiting, hi, empty]

end Accept

/-! ## Runs -/

section Run

variable {e : Nat} {s : Regs (8 * k) k (8 * e)} {i : Inputs (8 * k) k}
  {h : List (Inputs (8 * k) k × Outputs (8 * k) k (8 * e))}

structure Inv (e : Nat) (h : List (Inputs (8 * k) k × Outputs (8 * k) k (8 * e)))
    (s : Regs (8 * k) k (8 * e)) : Prop where
  shape : Shape e s.state s.hi s.lo
  tracks : Tracks e (transfers accepted h)
    (transfers sentStruct h ++ s.extracted) (transfers sentBuf h ++ s.outbuf)
    s.state s.hi s.lo

theorem wires_of_no_beat (hb : beatIn s i = none) : wires s i = (s.hi, s.lo) := by
  rw [wires, hb]
  cases s.state <;> rfl

theorem stateNext_of_no_beat (hb : beatIn s i = none) : stateNext s i = s.state := by
  rw [stateNext, hb]
  cases s.state <;> rfl

theorem occupancy_wires : s.hi.occupancy = (wires s i).1.occupancy := by
  rw [wires]
  cases s.state <;> cases beatIn s i <;> rfl

/-- No struct is made unless the frame comes in. -/
theorem struct_of_no_beat (hok : Unstalled e s i) (hb : beatIn s i = none) :
    (if i.extracted.accepts then struct s i else none) = none := by
  cases haccepts : i.extracted.accepts
  · rfl
  · rw [if_pos rfl, struct, if_neg]
    rintro ⟨hst, haxis⟩
    have hfree := hok.free hst haxis haccepts
    have hrdy : tready s i := by simp [tready, hst, haccepts, hfree]
    rw [beatIn, if_pos hrdy] at hb
    rw [hb] at haxis
    cases haxis

/-- The first half of a cycle. -/
theorem wires_step (he : e ≤ k) {ins pushed : List (Beat (8 * k) k)} {toks : List (BitVec (8 * e))}
    (hshape : Shape e s.state s.hi s.lo) (htracks : Tracks e ins toks pushed s.state s.hi s.lo)
    (hok : Unstalled e s i) :
    Wires e (stateNext s i) (wires s i).1 (wires s i).2 ∧ Tracks e (ins ++ (beatIn s i).toList)
        (toks ++ (if i.extracted.accepts then struct s i else none).toList) pushed
        (stateNext s i) (wires s i).1 (wires s i).2 := by
  cases hb : beatIn s i with
  | none =>
    rw [struct_of_no_beat hok hb, wires_of_no_beat hb, stateNext_of_no_beat hb]
    simpa using ⟨Or.inl hshape, htracks⟩
  | some b =>
    cases hst : s.state with
    | extract =>
      have haxis : i.axis.isSome ∧ i.extracted.accepts := by
        rw [beatIn, tready, hst] at hb
        cases haccepts : i.extracted.accepts <;> cases haxis : i.axis <;> simp_all
      have hstruct : struct s i = some (b.tdata.setWidth (8 * e)) := by
        rw [struct, if_pos ⟨hst, haxis.1⟩, hb]
        rfl
      rw [hst] at hshape htracks
      rw [if_pos haxis.2, hstruct]
      exact accept_extract he hst hshape htracks (hok.long hst b hb) hb
    | forward =>
      have hstruct : struct s i = none := by
        rw [struct, if_neg]
        rintro ⟨hextract, _⟩
        rw [hst] at hextract
        cases hextract
      rw [hst] at hshape htracks
      rw [hstruct, ite_self, Option.toList_none, append_nil]
      exact accept_forward he hst hshape htracks hb

theorem Tracks.shift {ins pushed : List (Beat w k)} {toks : List (BitVec n)} {state : State}
    {hi lo hi' lo' : Slot w k} {out : List (Beat w k)} (h : Tracks e ins toks pushed state hi lo)
    (hwaiting : waiting hi lo = out ++ waiting hi' lo')
    (hleft : leftover hi lo = leftover hi' lo') :
    Tracks e ins toks (pushed ++ out) state hi' lo' := by
  obtain ⟨fs, cur, gs, gcur, hfol, hins, htoks, houts⟩ := h
  refine ⟨fs, cur, gs, gcur, hleft ▸ hfol, hins, htoks, ?_⟩
  rw [append_assoc, ← hwaiting, houts]

theorem inv_step (he : e ≤ k) (hinv : Inv e h s) (hok : Unstalled e s i) :
    Inv e (h ++ [(i, output s i)]) (next s i) := by
  obtain ⟨hwires, htracks⟩ := wires_step he hinv.shape hinv.tracks hok
  obtain ⟨hshape, hwaiting, hleft⟩ := shifted_of_shape i occupancy_wires hwires
  refine ⟨hshape, ?_⟩
  have hshift := htracks.shift hwaiting hleft
  -- what leaves the output registers was in them or comes in
  have hstrs := Fifo.conserve (Eq.refl (transfers sentStruct h ++ s.extracted))
    i.extracted.shows i.extracted.ready (if i.extracted.accepts then struct s i else none)
  have hbufs := Fifo.conserve (Eq.refl (transfers sentBuf h ++ s.outbuf))
    i.outbuf.shows i.outbuf.ready (beatOut i (wires s i).1)
  rw [hstrs, hbufs] at hshift
  simp only [transfers_concat]
  exact hshift

theorem inv_run (he : e ≤ k) {inputs : List (Inputs (8 * k) k)}
    (hok : (extract (8 * k) k (8 * e)).Along (Unstalled e) inputs) :
    Inv e ((extract (8 * k) k (8 * e)).trace inputs) ((extract (8 * k) k (8 * e)).run inputs) := by
  refine Circuit.invariant (P := Inv e) ⟨.idle rfl rfl, [], [], [], [], ?_, rfl, rfl, rfl⟩
    (fun _ _ _ hinv hok => inv_step he hinv hok) hok
  exact ⟨nofun, nofun, nofun, nofun, rfl, by simp [extract], fun _ => rfl, nofun, nofun⟩

theorem map_structOf_frames {fs : List (List (Beat w k))} {cur : List (Beat w k)}
    (hfs : ∀ f ∈ fs, Complete tlast f) (hcur : ∀ b ∈ cur, ¬ b.tlast) :
    (frames tlast (fs.flatten ++ cur)).map (structOf n) = structs n fs cur := by
  rw [frames_flatten_append hfs, frames_of_no_last hcur, structs, map_append]
  cases cur <;> simp [structOf]

theorem Inv.inOrder (hinv : Inv e h s) : InOrder e h := by
  obtain ⟨fs, cur, gs, gcur, hfol, hins, htoks, houts⟩ := hinv.tracks
  constructor
  · rw [hins, map_structOf_frames hfol.complete hfol.begun, ← htoks]
    exact prefix_append _ _
  · intro hfin
    rw [append_assoc] at houts
    obtain ⟨m, heq⟩ := eq_flatten_take_of_finished hfol.outComplete hfol.outBegun
      ⟨_, houts⟩ hfin
    rw [heq, frames_flatten fun g hg => hfol.outComplete g (mem_of_mem_take hg),
      map_take, hfol.kept, hins, frames_flatten_append hfol.complete, map_append]
    exact (List.take_prefix _ _).trans (prefix_append _ _)

/-! ## Progress -/

/-- What is left to do until everything has left. -/
def rank (s : Regs w k n) : Nat :=
  s.outbuf.length + s.extracted.length + 2 * s.hi.valid.toNat + 3 * s.lo.occupancy.toNat

theorem unstalled_of_quiet (hquiet : Quiet i) : Unstalled e s i where
  free _ haxis := by
    rw [hquiet.1] at haxis
    cases haxis
  long _ b hb := by
    rw [beatIn, hquiet.1, ite_self] at hb
    cases hb

theorem rank_next (hshape : Shape e s.state s.hi s.lo) (hquiet : Quiet i) :
    rank (next s i) ≤ rank s - 1 := by
  obtain ⟨haxis, hout, hext⟩ := hquiet
  have hb : beatIn s i = none := by rw [beatIn, haxis, ite_self]
  have hstruct : struct s i = none := by simp [struct, haxis]
  rw [rank, rank, next, wires_of_no_beat hb, hstruct, ite_self, hout, hext]
  simp only [Fifo.length_next_of_ready, shifted, beatOut, hout, Bool.true_and]
  generalize hst : s.state = state at hshape
  generalize hlo : s.lo = lo at hshape
  cases hshape with
  | idle hocc hvalid =>
    simp [hocc, hvalid, empty]
    omega
  | one htail =>
    cases htail with
    | ending hocc hvalid _ =>
      simp [hocc, hvalid, empty]
      omega
    | begun hocc hvalid _ _ =>
      simp [hocc, hvalid, empty]
      omega
  | two hocc hvalid htail =>
    have hlocc : lo.occupancy := by cases htail <;> assumption
    have hle := lo.valid.toNat_lt
    simp [hocc, hvalid, hlocc, empty]
    omega

theorem quiet_run (he : e ≤ k) {inputs rest : List (Inputs (8 * k) k)}
    (hok : (extract (8 * k) k (8 * e)).Along (Unstalled e) inputs)
    (hrest : ∀ i ∈ rest, Quiet i) :
    (extract (8 * k) k (8 * e)).Along (Unstalled e) (inputs ++ rest) ∧
      rank ((extract (8 * k) k (8 * e)).run (inputs ++ rest)) ≤
        rank ((extract (8 * k) k (8 * e)).run inputs) - rest.length := by
  refine rank_append rank (fun is i halong hquiet => ?_) hok hrest
  exact ⟨along_concat.mpr ⟨halong, unstalled_of_quiet hquiet⟩,
    rank_next (inv_run he halong).shape hquiet⟩

theorem Inv.delivered (hinv : Inv e h s) (hrank : rank s = 0) : Delivered e h := by
  have hemp : s.outbuf = [] ∧ s.extracted = [] ∧ s.hi.valid = false ∧ s.lo.occupancy = false := by
    rw [rank] at hrank
    cases hvalid : s.hi.valid <;> cases hocc : s.lo.occupancy <;> simp_all
  obtain ⟨hbuf, hext, hvalid, hocc⟩ := hemp
  obtain ⟨fs, cur, gs, gcur, hfol, hins, htoks, houts⟩ := hinv.tracks
  rw [hext, append_nil] at htoks
  rw [hbuf, hinv.shape.lo_empty hocc, append_nil, waiting, hvalid] at houts
  constructor
  · rw [hins, map_structOf_frames hfol.complete hfol.begun, htoks]
  · intro hfin
    rw [hins] at hfin
    obtain rfl := eq_nil_of_finished hfol.begun (unfinished_of_append hfin)
    have hst : s.state = .extract := by
      cases hst : s.state with
      | extract => rfl
      | forward => exact absurd rfl (hfol.inFrame.mp hst)
    obtain rfl := hfol.done hst
    have houts : transfers sentBuf h = gs.flatten := by simpa [empty] using houts
    rw [houts, frames_flatten hfol.outComplete, hfol.kept, hins, append_nil,
      frames_flatten hfol.complete]

end Run

/-- In every run in which no frame waits at a full shift register, structs and frames come out
in order, and all of them as soon as nothing stalls. -/
theorem extract_delivers {e : Nat} (he : e ≤ k) (inputs : List (Inputs (8 * k) k))
    (hok : (extract (8 * k) k (8 * e)).Along (Unstalled e) inputs) :
    let c := extract (8 * k) k (8 * e)
    InOrder e (c.trace inputs) ∧
      ∃ m, ∀ rest : List (Inputs (8 * k) k), (∀ i ∈ rest, Quiet i) → m ≤ rest.length →
        Delivered e (c.trace (inputs ++ rest)) := by
  intro c
  refine ⟨(inv_run he hok).inOrder, rank (c.run inputs), fun rest hrest hlen => ?_⟩
  obtain ⟨halong, hrank⟩ := quiet_run he hok hrest
  refine (inv_run he halong).delivered ?_
  have hle : rank (c.run (inputs ++ rest)) ≤ rank (c.run inputs) - rest.length := hrank
  exact Nat.eq_zero_of_le_zero (hle.trans (Nat.sub_eq_zero_of_le hlen).le)

/-- A frame of two beats of two bytes: the first byte is the struct. -/
theorem extract_delivers_three_bytes : let free : Sink := ⟨true, true, true⟩
    let i : Inputs (8 * 2) 2 := ⟨some ⟨0x0201, 3, false⟩, free, free⟩
    let j : Inputs (8 * 2) 2 := ⟨some ⟨0x0403, 3, true⟩, free, free⟩
    let o : Inputs (8 * 2) 2 := ⟨none, free, free⟩
    let c := extract (8 * 2) 2 (8 * 1)
    transfers sentStruct (c.trace [i, j, o, o]) = [1] ∧
      keptOf (transfers sentBuf (c.trace [i, j, o, o])) = [2, 3, 4] ∧
      InOrder 1 (c.trace [i, j]) ∧
      ∃ m, ∀ rest : List (Inputs (8 * 2) 2), (∀ i ∈ rest, Quiet i) → m ≤ rest.length →
        Delivered 1 (c.trace ([i, j] ++ rest)) := by
  intro free i j o c
  have hok : c.Along (Unstalled 1) ([] ++ [i] ++ [j]) := by
    rw [along_concat, along_concat]
    exact ⟨⟨along_nil _, by constructor <;> decide⟩, by constructor <;> decide⟩
  exact ⟨by decide, by decide, extract_delivers (by decide) [i, j] hok⟩

/-- The output of the frames is not ready. When both words of the shift register and the
output register are full, the fifth frame has to wait, and structs are made of nothing. -/
theorem extract_spurious_structs : let frame : BitVec 8 → Sink → Inputs (8 * 2) 2 := fun x out =>
      ⟨some ⟨x.setWidth 16, 3, true⟩, out, ⟨true, true, true⟩⟩
    let inputs := [frame 1 ⟨true, false, false⟩, frame 2 ⟨true, false, false⟩,
      frame 3 ⟨true, true, false⟩, frame 4 ⟨false, true, false⟩, frame 5 ⟨false, true, false⟩,
      frame 5 ⟨false, true, true⟩, frame 5 ⟨true, true, true⟩, frame 5 ⟨true, true, true⟩,
      ⟨none, ⟨true, true, true⟩, ⟨true, true, true⟩⟩]
    let h := (extract (8 * 2) 2 (8 * 1)).trace inputs
    (frames tlast (transfers accepted h)).map (structOf 8) = [1, 2, 3, 4, 5] ∧
      transfers sentStruct h = [1, 2, 3, 4, 0, 0, 0, 5] ∧ ¬ InOrder 1 h := by
  intro frame inputs h
  have hstrs : (frames tlast (transfers accepted h)).map (structOf 8) = [1, 2, 3, 4, 5] := by decide
  have hsent : transfers sentStruct h = [1, 2, 3, 4, 0, 0, 0, 5] := by decide
  refine ⟨hstrs, hsent, fun hord => ?_⟩
  have hlen := hord.1.length_le
  rw [hsent] at hlen
  have hframes := congrArg List.length hstrs
  rw [length_map] at hframes hlen
  simp [hframes] at hlen

end Extract

end Alkali.Fpga
