import Alkali.Library.Synchronous

/-!
# The modules `arg_demux` and `pred_demux` at the entry of a block

A block with several incoming edges has one `pred_demux` and, for each argument, one `arg_demux`
with a queue for each edge. `pred_demux` hands out the predicates of all edges as one word, and
`arg_demux` sends the value of the edge that the word selects and drops the others.

`emitBBInputDemux` connects the wires of all `arg_demux` instances to the one output
`m_pred_out`. The concatenation is wider than the output, so only the last instance gets the
predicates.
-/

namespace Alkali.Fpga

open Synchronous

/-! ## `arg_demux` -/

/-- The queues of the edges, the grant of the arbiter and the output registers of `lookup_mux`. -/
structure ArgDemux (n : Nat) (α : Type) where
  inFifo : Fin n → List α
  grant : Option (Fin n)
  out : List α

namespace ArgDemux

variable {n : Nat} {α : Type}

/-- The inputs, and what the queues, the arbiter and the output registers do in the cycle. The
arbiter grants the first port in its list that has a request. -/
structure Inputs (n : Nat) (α : Type) where
  demuxIn : Fin n → Fifo.Port α
  order : List (Fin n)
  muxReady : Bool
  outShows : Bool
  outReady : Bool

section Signals

variable (s : ArgDemux n α) (i : Inputs n α) (pred : Option (Fin n → Bool)) (rid : Fin n)

/-- `fifo_axis_out`. -/
def fifoOut : Option α := Fifo.front (i.demuxIn rid).shows (s.inFifo rid)

def everyoneIsValid : Bool :=
  ((List.finRange n).all fun rid => (fifoOut s i rid).isSome) && pred.isSome

def selected (pred : Option (Fin n → Bool)) (rid : Fin n) : Bool := pred.any fun word => word rid

/-- `grouped_fifo_axis_out_tvalid`. -/
def groupedValid : Bool := everyoneIsValid s i pred && selected pred rid

/-- `grouped_fifo_axis_out_tready`: only the port with the grant is ready. -/
def groupedReady : Bool := i.muxReady && (s.grant == some rid)

/-- `s_pred_in_tready`. -/
def predReady : Bool :=
  (List.finRange n).any fun rid => groupedValid s i pred rid && groupedReady s i rid

/-- `fifo_axis_out_tready`. -/
def fifoReady : Bool :=
  everyoneIsValid s i pred &&
    if selected pred rid then groupedReady s i rid else (List.finRange n).any (groupedReady s i)

def request : Bool := groupedValid s i pred rid && !(s.grant == some rid)

/-- The granted port sends its beat, which is the last one of its packet. -/
def acknowledge : Bool :=
  s.grant.any fun rid => groupedValid s i pred rid && groupedReady s i rid

/-- The arbiter holds a grant until it is acknowledged. -/
def grantNext : Option (Fin n) :=
  if s.grant.isSome && !acknowledge s i pred then s.grant else i.order.find? (request s i pred)

/-- The beat that goes into the output registers. -/
def taken : Option α :=
  s.grant.bind fun rid =>
    if groupedValid s i pred rid && i.muxReady then fifoOut s i rid else none

def next : ArgDemux n α where
  inFifo rid := Fifo.next (i.demuxIn rid).shows (fifoReady s i pred rid) (s.inFifo rid)
    (i.demuxIn rid).pushed
  grant := grantNext s i pred
  out := Fifo.next i.outShows i.outReady s.out (taken s i pred)

end Signals

/-- `m_demux_out`. -/
def sent (s : ArgDemux n α) (i : Inputs n α) : Option α := Fifo.popped i.outShows i.outReady s.out

end ArgDemux

/-! ## The entry of a block -/

/-- The queues of `pred_demux` and the modules of the arguments. -/
structure BlockDemux (n k : Nat) (α : Type) where
  preds : Fin n → List Bool
  args : Fin k → ArgDemux n α

namespace BlockDemux

variable {n k : Nat} {α : Type}

/-- The inputs of the modules, where `predReady` is `m_demux_out_tready` of `pred_demux`. -/
structure Inputs (n k : Nat) (α : Type) where
  predIn : Fin n → Fifo.Port Bool
  predReady : Bool
  args : Fin k → ArgDemux.Inputs n α

section Signals

variable (s : BlockDemux n k α) (i : Inputs n k α)

def predOut (rid : Fin n) : Option Bool := Fifo.front (i.predIn rid).shows (s.preds rid)

/-- `m_pred_out`: the predicates of all edges. -/
def predWord : Option (Fin n → Bool) :=
  if (List.finRange n).all fun rid => (predOut s i rid).isSome then
    some fun rid => (predOut s i rid).getD false
  else none

/-- `s_pred_in` of an argument. -/
def localPred (arg : Fin k) : Option (Fin n → Bool) :=
  if arg.val + 1 = k then predWord s i else none

/-- `warpped_pred_out_tready`. -/
def predOutReady : Bool :=
  (List.finRange k).all fun arg =>
    arg.val + 1 != k || (s.args arg).predReady (i.args arg) (localPred s i arg)

def next : BlockDemux n k α where
  preds rid := Fifo.next (i.predIn rid).shows
    (i.predReady && predOutReady s i && (predWord s i).isSome) (s.preds rid) (i.predIn rid).pushed
  args arg := (s.args arg).next (i.args arg) (localPred s i arg)

end Signals

/-- The entry of a block with `n` incoming edges and `k` arguments. -/
def blockDemux (n k : Nat) (α : Type) :
    Circuit (BlockDemux n k α) (Inputs n k α) (Fin k → Option α) where
  init := ⟨fun _ => [], fun _ => ⟨fun _ => [], none, []⟩⟩
  output s i arg := (s.args arg).sent (i.args arg)
  next := next

/-! ## What it is for -/

section Spec

variable (h : List (Inputs n k α × (Fin k → Option α)))

/-- The predicates that have come over an edge. -/
def predsOf (rid : Fin n) : List Bool :=
  Circuit.transfers (fun i (_ : Fin k → Option α) => (i.predIn rid).pushed) h

/-- The values that have come over an edge. -/
def valuesOf (arg : Fin k) (rid : Fin n) : List α :=
  Circuit.transfers (fun i (_ : Fin k → Option α) => ((i.args arg).demuxIn rid).pushed) h

def sentOf (arg : Fin k) : List α := Circuit.transfers (fun _ o => o arg) h

/-- The value of a round: that of the edge whose predicate is one. -/
def roundValue (preds : Fin n → List Bool) (values : Fin n → List α) (round : Nat) : Option α :=
  (List.finRange n).findSome? fun rid =>
    if (preds rid)[round]? = some true then (values rid)[round]? else none

/-- Some rounds are over: each has removed one predicate and one value from every edge, and its
value is sent or in the output registers. -/
def Aligned (arg : Fin k) (s : BlockDemux n k α) : Prop :=
  ∃ rounds, (∀ rid, (predsOf h rid).length = rounds + (s.preds rid).length) ∧
    (∀ rid, (valuesOf h arg rid).length = rounds + ((s.args arg).inFifo rid).length) ∧
    sentOf h arg ++ (s.args arg).out =
      (List.range rounds).filterMap (roundValue (predsOf h) (valuesOf h arg))

end Spec

/-- No round is left for which every edge has its predicate and its value. -/
def Finished (arg : Fin k) (s : BlockDemux n k α) : Prop :=
  (∃ rid, s.preds rid = [] ∨ (s.args arg).inFifo rid = []) ∧ (s.args arg).out = []

/-- Nothing comes in, the arbiter looks at all ports, and whatever can move moves. -/
structure Quiet (arg : Fin k) (i : Inputs n k α) : Prop where
  preds : ∀ rid, (i.predIn rid).pushed = none ∧ (i.predIn rid).shows
  values : ∀ rid, ((i.args arg).demuxIn rid).pushed = none ∧ ((i.args arg).demuxIn rid).shows
  order : ∀ rid, rid ∈ (i.args arg).order
  ready : i.predReady ∧ (i.args arg).muxReady ∧ (i.args arg).outShows ∧ (i.args arg).outReady

/-- Of the predicates of each round one is one. -/
def OneHot (h : List (Inputs n k α × (Fin k → Option α))) : Prop :=
  ∀ round, (∀ rid, round < (predsOf h rid).length) →
    ∃ rid, ∀ rid', (predsOf h rid')[round]? = some true ↔ rid' = rid

/-- The reader of the block's predicate is ready when the argument may take a round. -/
def ReaderReady (arg : Fin k) (s : BlockDemux n k α) (i : Inputs n k α) : Prop :=
  (s.args arg).grant.isSome → (i.args arg).muxReady → i.predReady

end BlockDemux

end Alkali.Fpga
