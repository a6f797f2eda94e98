import Alkali.Fpga.CamWarpper
import Alkali.Fpga.Extract

/-!
# The module `cam_arbiter`

The ports of a table. An update port has a queue for the keys and one for the values, which
are merged when both show an entry. One arbiter chooses among the update ports and one among
the lookup ports, and the wrapper takes the requests from both. What the wrapper reads goes to
the queue of the port that its user names.
-/

namespace Alkali.Fpga

open Synchronous

/-- The queues of the ports, the output registers of `update_mux` and `lookup_mux`, and the
wrapper. -/
structure CamArbiter (w updatePorts lookupPorts : Nat) (K V : Type) where
  index : Fin updatePorts → List K
  data : Fin updatePorts → List V
  updates : List (K × V)
  lookupReg : Fin lookupPorts → List K
  lookups : List (K × BitVec 4)
  warpper : CamWarpper w K V
  results : Fin lookupPorts → List V

namespace CamArbiter

variable {w up lp : Nat} {K V : Type}

/-- The inputs of the ports, and what the queues, the arbiters, `match_mux` and the CAM do in
the cycle. An arbiter takes the request of the first port in its list that has one. -/
structure Inputs (up lp : Nat) (K V : Type) where
  index : Fin up → Fifo.Port K
  data : Fin up → Fifo.Port V
  updateOrder : List (Fin up)
  updateShows : Bool
  lookup : Fin lp → Fifo.Port K
  lookupOrder : List (Fin lp)
  lookupShows : Bool
  muxReady : Bool
  matchShows : Bool
  camBusy : Bool
  result : Fin lp → Extract.Sink

section Signals

variable (s : CamArbiter w up lp K V) (i : Inputs up lp K V)

/-- `merged_update_req_indexdata`. -/
def merged (port : Fin up) : Option (K × V) :=
  match Fifo.front (i.index port).shows (s.index port),
    Fifo.front (i.data port).shows (s.data port) with
  | some key, some value => some (key, value)
  | _, _ => none

/-- The key at the output of `lookupreq_reg`. -/
def lookupIndex (port : Fin lp) : Option K :=
  Fifo.front (i.lookup port).shows (s.lookupReg port)

/-- The port from which `update_mux` takes an update. -/
def updatePick : Option (Fin up) := i.updateOrder.find? fun port => (merged s i port).isSome

/-- The port from which `lookup_mux` takes a lookup. -/
def lookupPick : Option (Fin lp) := i.lookupOrder.find? fun port => (lookupIndex s i port).isSome

def pickedUpdate : Option (K × V) := (updatePick s i).bind (merged s i)

/-- The user of a lookup is the number of its port in four bits. -/
def pickedLookup : Option (K × BitVec 4) :=
  (lookupPick s i).bind fun port =>
    (lookupIndex s i port).map fun key => (key, BitVec.ofNat 4 port)

/-- The inputs of the wrapper. It may read only if the queues of all ports are ready. -/
def warpperInputs : CamWarpper.Inputs K V where
  updateReq := Fifo.front i.updateShows s.updates
  lookupReq := Fifo.front i.lookupShows s.lookups
  muxReady := i.muxReady
  matchShows := i.matchShows
  camBusy := i.camBusy
  valueReady := (List.finRange lp).all fun port => (i.result port).accepts

/-- What comes into the queue of a port. -/
def delivered (port : Fin lp) : Option V :=
  s.warpper.readValue.bind fun x =>
    if x.2.toNat = port ∧ (i.result port).accepts then some x.1 else none

/-- The update of a port whose key and value are both there for the first time. -/
def completed (port : Fin up) : Option (K × V) :=
  ((s.index port ++ (i.index port).pushed.toList).zip
    (s.data port ++ (i.data port).pushed.toList))[((s.index port).zip (s.data port)).length]?

end Signals

/-- The updates that the ports accept and the responses of the ports. -/
structure Outputs (lp : Nat) (K V : Type) where
  updates : List (K × V)
  response : Fin lp → Option V

def output (s : CamArbiter w up lp K V) (i : Inputs up lp K V) : Outputs lp K V where
  updates := (List.finRange up).filterMap (completed s i)
  response port := Fifo.popped (i.result port).shows (i.result port).ready (s.results port)

variable [DecidableEq K]

def next (s : CamArbiter w up lp K V) (i : Inputs up lp K V) : CamArbiter w up lp K V where
  index port :=
    Fifo.next (i.index port).shows (updatePick s i = some port) (s.index port)
      (i.index port).pushed
  data port :=
    Fifo.next (i.data port).shows (updatePick s i = some port) (s.data port)
      (i.data port).pushed
  updates := Fifo.next i.updateShows (s.warpper.updateReady (warpperInputs s i)) s.updates
    (pickedUpdate s i)
  lookupReg port :=
    Fifo.next (i.lookup port).shows (lookupPick s i = some port) (s.lookupReg port)
      (i.lookup port).pushed
  lookups := Fifo.next i.lookupShows (s.warpper.lookupReady (warpperInputs s i)) s.lookups
    (pickedLookup s i)
  warpper := s.warpper.next (warpperInputs s i)
  results port := Fifo.next (i.result port).shows (i.result port).ready (s.results port)
    (delivered s i port)

variable [Zero V]

/-- A table with `2 ^ w` slots. -/
def table (w up lp : Nat) (K V : Type) [DecidableEq K] [Zero V] :
    Circuit (CamArbiter w up lp K V) (Inputs up lp K V) (Outputs lp K V) where
  init := ⟨fun _ => [], fun _ => [], [], fun _ => [], [], CamWarpper.init w K V, fun _ => []⟩
  output := output
  next := next

/-! ## What a table is for -/

/-- The accepted updates. -/
def updatesOf (h : List (Inputs up lp K V × Outputs lp K V)) : List (K × V) :=
  h.flatMap fun x => x.2.updates

/-- The value of the latest update of a key, and zero if there is none. -/
def latest (us : List (K × V)) (key : K) : V :=
  match us.reverse.find? fun x => x.1 = key with
  | some x => x.2
  | none => 0

/-- The accepted lookups of a port, each with the value that the updates before it give. -/
def expectedFrom (port : Fin lp) : List (K × V) → List (Inputs up lp K V × Outputs lp K V) → List V
  | _, [] => []
  | us, (i, o) :: h =>
    ((i.lookup port).pushed.map (latest us)).toList ++ expectedFrom port (us ++ o.updates) h

def expected (port : Fin lp) (h : List (Inputs up lp K V × Outputs lp K V)) : List V :=
  expectedFrom port [] h

def responses (port : Fin lp) (h : List (Inputs up lp K V × Outputs lp K V)) : List V :=
  Circuit.transfers (fun _ o => o.response port) h

/-- The responses of each port are those of its first lookups, in order. -/
def InOrder (h : List (Inputs up lp K V × Outputs lp K V)) : Prop :=
  ∀ port, responses port h <+: expected port h

/-- Each lookup has its response. -/
def Answered (h : List (Inputs up lp K V × Outputs lp K V)) : Prop :=
  ∀ port, responses port h = expected port h

/-- The different keys that are updated. -/
def keysOf (us : List (K × V)) : Finset K := (us.map Prod.fst).toFinset

/-! ## When it works -/

/-- The accepted updates that the match stage has not taken. -/
def waitingUpdates (s : CamArbiter w up lp K V) : List (K × V) :=
  ((List.finRange up).flatMap fun port => (s.index port).zip (s.data port)) ++ s.updates ++
    s.warpper.matchReq.filterMap Req.asUpdate

/-- The keys of the accepted lookups of a port that the match stage has not taken. -/
def waitingLookups (s : CamArbiter w up lp K V) (port : Fin lp) : List K :=
  s.warpper.matchReq.filterMap (Req.asLookup (BitVec.ofNat 4 port)) ++
    s.lookups.filterMap (fun x => if x.2 = BitVec.ofNat 4 port then some x.1 else none) ++
    s.lookupReg port

/-- The match stage never loses a result: the CAM is idle when an update is to be written, the
ram and the queue of the port are ready for a lookup. A lookup without a match finds a zero at
the address 2. A key is updated only if no request for it waits, and looked up only if no
update of it waits. -/
structure Served (s : CamArbiter w up lp K V) (i : Inputs up lp K V) : Prop where
  idle : ∀ key v, s.warpper.result = some (.update key v) → i.camBusy = false
  read : ∀ key user, s.warpper.result = some (.lookup key user) → s.warpper.readReady
  miss : ∀ key user, s.warpper.result = some (.lookup key user) → s.warpper.matched = none →
    s.warpper.ram (BitVec.ofNat w 2) = 0
  room : ∀ v user, s.warpper.readValue = some (v, user) → ∀ port : Fin lp,
    user.toNat = port → (i.result port).accepts
  updated : ((waitingUpdates s ++ (output s i).updates).map Prod.fst).Nodup
  apart : ∀ port, ∀ key ∈ waitingLookups s port ++ (i.lookup port).pushed.toList,
    key ∉ (output s i).updates.map Prod.fst
  lookedUp : ∀ port, ∀ key ∈ (i.lookup port).pushed, key ∉ (waitingUpdates s).map Prod.fst

/-- Nothing is accepted, the arbiters look at all ports, and whatever can move moves. -/
structure Quiet (i : Inputs up lp K V) : Prop where
  index : ∀ port, (i.index port).pushed = none ∧ (i.index port).shows
  data : ∀ port, (i.data port).pushed = none ∧ (i.data port).shows
  lookup : ∀ port, (i.lookup port).pushed = none ∧ (i.lookup port).shows
  updateOrder : ∀ port, port ∈ i.updateOrder
  lookupOrder : ∀ port, port ∈ i.lookupOrder
  shows : i.updateShows ∧ i.lookupShows ∧ i.matchShows ∧ i.muxReady
  result : ∀ port, (i.result port).accepts ∧ (i.result port).shows ∧ (i.result port).ready

end CamArbiter

end Alkali.Fpga
