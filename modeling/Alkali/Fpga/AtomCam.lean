import Alkali.Library.Synchronous

/-!
# The modules `CAM` and `atom_CAM`

A global table is an `atom_CAM`. It wraps a `CAM` with four keys and four values and ties the
opcode to one, the addition. The opcode that would store a key is zero, so the keys stay as
after the reset: the key zero has the first value, and all other keys share the last one. The
`CAM` also takes the key and the value of an update from its input wires, in the cycle in which
they leave their queues.
-/

namespace Alkali.Fpga

open Synchronous Circuit Function

/-! ## `CAM` -/

/-- The wires of a stream, whose payload is there whether it is valid or not, and what the queue
behind them does in the cycle. -/
structure Line (α : Type) where
  valid : Bool
  payload : α
  ready : Bool
  shows : Bool

namespace Line

variable {α β : Type}

/-- The entry that comes in. -/
def pushed (l : Line α) : Option α := if l.valid && l.ready then some l.payload else none

def map (f : α → β) (l : Line α) : Line β := ⟨l.valid, f l.payload, l.ready, l.shows⟩

theorem pushed_map (f : α → β) (l : Line α) : (l.map f).pushed = l.pushed.map f := by
  obtain ⟨valid, payload, ready, shows⟩ := l
  cases valid <;> cases ready <;> rfl

end Line

/-- The registers and the queues. -/
structure Cam where
  next1 : Fin 4
  keys : Fin 4 → BitVec 8
  values : Fin 4 → BitVec 32
  keyFifo : List (BitVec 8)
  valueFifo : List (BitVec 32)
  opFifo : List (BitVec 8)
  readFifo : List (BitVec 8)

namespace Cam

structure Inputs where
  key : Line (BitVec 8)
  value : Line (BitVec 32)
  op : Line (BitVec 8)
  read : Line (BitVec 8)
  responseReady : Bool

/-- After the reset. -/
def init : Cam := ⟨0, fun _ => 0, fun _ => 0, [], [], [], []⟩

section Signals

variable (s : Cam) (i : Inputs)

/-- The first slot with a key, and the last one if there is none. -/
def index (key : BitVec 8) : Fin 4 :=
  if s.keys 0 = key then 0 else if s.keys 1 = key then 1 else if s.keys 2 = key then 2 else 3

/-- The key and the value that leave their queues. -/
def written : Option (BitVec 8 × BitVec 32) :=
  match Fifo.front i.key.shows s.keyFifo, Fifo.front i.value.shows s.valueFifo,
    Fifo.front i.op.shows s.opFifo with
  | some key, some value, some _ => some (key, value)
  | _, _, _ => none

def writeCmdFire : Bool := (written s i).isSome

/-- `io_readResponse_payload` for a key. -/
def readValue (key : BitVec 8) : BitVec 32 :=
  if writeCmdFire s i && i.key.payload == key then i.value.payload else s.values (s.index key)

/-- The key that leaves its queue, and the response. -/
def response : Option (BitVec 8 × BitVec 32) :=
  (Fifo.popped i.read.shows i.responseReady s.readFifo).map fun key => (key, readValue s i key)

def nextKeys : Fin 4 → BitVec 8 :=
  if writeCmdFire s i && i.op.payload == 0 then
    update s.keys s.next1 i.key.payload
  else s.keys

def nextValues : Fin 4 → BitVec 32 :=
  let slot := s.index i.key.payload
  if !writeCmdFire s i then s.values
  else if i.op.payload = 0 then update s.values s.next1 i.value.payload
  else if i.op.payload = 1 then
    update s.values slot (s.values slot + i.value.payload)
  else if i.op.payload = 2 then
    update s.values slot (s.values slot - i.value.payload)
  else s.values

def next : Cam where
  next1 := if writeCmdFire s i && i.op.payload == 0 then s.next1 + 1 else s.next1
  keys := nextKeys s i
  values := nextValues s i
  keyFifo := Fifo.next i.key.shows (writeCmdFire s i) s.keyFifo i.key.pushed
  valueFifo := Fifo.next i.value.shows (writeCmdFire s i) s.valueFifo i.value.pushed
  opFifo := Fifo.next i.op.shows (writeCmdFire s i) s.opFifo i.op.pushed
  readFifo := Fifo.next i.read.shows i.responseReady s.readFifo i.read.pushed

end Signals

end Cam

/-! ## `atom_CAM` -/

namespace AtomCam

variable {kw vw : Nat}

/-- The wires of the table's ports, with keys of `kw` and values of `vw` bits, and what the queue
of the opcodes does. -/
structure Inputs (kw vw : Nat) where
  updateIndex : Line (BitVec kw)
  updateData : Line (BitVec vw)
  opReady : Bool
  opShows : Bool
  lookupIndex : Line (BitVec kw)
  valueReady : Bool

/-- The ports have 8 and 32 bits, and the opcode is one. -/
def toCam (i : Inputs kw vw) : Cam.Inputs where
  key := i.updateIndex.map (BitVec.setWidth 8)
  value := i.updateData.map (BitVec.setWidth 32)
  op := ⟨true, 1, i.opReady, i.opShows⟩
  read := i.lookupIndex.map (BitVec.setWidth 8)
  responseReady := i.valueReady

/-- What is written and what is read. -/
structure Outputs (kw vw : Nat) where
  written : Option (BitVec kw × BitVec vw)
  response : Option (BitVec kw × BitVec vw)

/-- A key and a value on wires of the table's width. -/
def widen (x : BitVec 8 × BitVec 32) : BitVec kw × BitVec vw := (x.1.setWidth kw, x.2.setWidth vw)

def atomCam (kw vw : Nat) : Circuit Cam (Inputs kw vw) (Outputs kw vw) where
  init := Cam.init
  output s i := ⟨(s.written (toCam i)).map widen, (s.response (toCam i)).map widen⟩
  next s i := s.next (toCam i)

/-! ## What a table is for -/

/-- `ep2.update` sets an entry, and `ep2.update_atomic` with the opcode one adds to it. -/
def applyUpdate (atomic : Bool) (table : BitVec kw → BitVec vw) (x : BitVec kw × BitVec vw) :
    BitVec kw → BitVec vw :=
  update table x.1 (if atomic then table x.1 + x.2 else x.2)

section Spec

variable (h : List (Inputs kw vw × Outputs kw vw))

/-- The updates that have been executed. -/
def writes : List (BitVec kw × BitVec vw) := transfers (fun _ o => o.written) h

/-- The entries after them. -/
def tableOf (atomic : Bool) : BitVec kw → BitVec vw :=
  (writes h).foldl (applyUpdate atomic) fun _ => 0

/-- The accepted updates. -/
def updates : List (BitVec kw × BitVec vw) :=
  (transfers (fun i _ => i.updateIndex.pushed) h).zip
    (transfers (fun i _ => i.updateData.pushed) h)

/-- The requests are executed in the order in which they are accepted. -/
def InOrder : Prop :=
  writes h <+: updates h ∧ (transfers (fun _ o => o.response) h).map Prod.fst <+:
      transfers (fun i _ => i.lookupIndex.pushed) h

end Spec

/-- What a lookup of a key would return. -/
def entry (s : Cam) (key : BitVec kw) : BitVec vw :=
  (s.values (s.index (key.setWidth 8))).setWidth vw

/-- The ports carry every key and every value. -/
def Carries (kw vw : Nat) : Prop :=
  (∀ key : BitVec kw, (key.setWidth 8).setWidth kw = key) ∧
    ∀ value : BitVec vw, (value.setWidth 32).setWidth vw = value

/-- The table has its EP2 meaning in a run: requests are executed in order, every update leaves
the entries as it should, and every response is the entry of its key before or after the update
of the same cycle. -/
def Meaning (kw vw : Nat) (atomic : Bool) (inputs : List (Inputs kw vw)) : Prop :=
  let c := atomCam kw vw
  InOrder (c.trace inputs) ∧
    (∀ is, is <+: inputs → ∀ key, entry (c.run is) key = tableOf (c.trace is) atomic key) ∧
    ∀ is i, is ++ [i] <+: inputs → ∀ key value,
      (c.output (c.run is) i).response = some (key, value) →
        value = tableOf (c.trace is) atomic key ∨ value = tableOf (c.trace (is ++ [i])) atomic key

/-- No other key has the slot of the key. -/
def Alone (key : BitVec kw) : Prop := key = 0 ∨ ∀ key' : BitVec kw, key' ≠ 0 → key' = key

/-- An update that is executed changes its entry by the value that is on the wires, its key is
on the wires and has a slot of its own, or nothing changes. A lookup of the key on the wires
finds a zero or the value on the wires. -/
structure Sound (atomic : Bool) (s : Cam) (i : Inputs kw vw) : Prop where
  update : ∀ key value, (s.written (toCam i)).map widen = some (key, value) →
    i.updateData.payload = (if atomic then value else value - entry s key) ∧
      (i.updateData.payload = 0 ∨ i.updateIndex.payload = key ∧ Alone key)
  lookup : (s.written (toCam i)).isSome → ∀ x ∈ s.response (toCam i),
    x.1.setWidth kw = i.updateIndex.payload → entry s i.updateIndex.payload = (0 : BitVec vw) ∨
        entry s i.updateIndex.payload = i.updateData.payload

end AtomCam

end Alkali.Fpga
