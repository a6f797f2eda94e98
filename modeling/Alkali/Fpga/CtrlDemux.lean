import Alkali.Fpga.Extract

/-!
# The module `ctrl_demux`

A demultiplexer of a controller sends each frame of a channel to one replica. It takes a token
of the dispatcher with the first beat of a frame; `axis_demux` keeps its value until the last
beat. The beats go through the output registers of `axis_demux` to the queue of the replica.
-/

namespace Alkali.Fpga

open Synchronous List Fifo

/-- The registers of `ctrl_demux` and of its `axis_demux`. A beat in the output registers is
valid for the replica with its number. -/
structure CtrlDemux (replicas w : Nat) (β : Type) where
  inFifo : List β
  /-- `if_first_segment` -/
  first : Bool
  frame : Bool
  select : BitVec w
  out : List (Nat × β)
  fifo : Fin replicas → List β

namespace CtrlDemux

variable {replicas w : Nat} {β : Type}

/-- `s_val_axis`, and what the queues and `axis_demux` do in the cycle. -/
structure Inputs (replicas : Nat) (β : Type) where
  port : Fifo.Port β
  /-- `s_axis_tready_reg` -/
  tready : Bool
  outShows : Bool
  sink : Fin replicas → Extract.Sink

section Signals

variable (last : β → Bool) (d : CtrlDemux replicas w β) (i : Inputs replicas β)
  (token : Option (BitVec w))

/-- The beat that goes from the input queue to `axis_demux`. A first beat needs a token. -/
def transferred : Option β :=
  if i.tready && (if d.first then token.isSome else true) then front i.port.shows d.inFifo
  else none

/-- `s_dispatcher_tready`. -/
def tokenReady : Bool := d.first && (transferred d i token).isSome

def selectCtl : BitVec w := if d.frame then d.select else token.getD d.select

/-- The beat that comes into the output registers: `1 << select_ctl` has a bit for each
replica. -/
def entered : Option (Nat × β) :=
  (transferred d i token).bind fun b =>
    if (selectCtl d token).toNat < replicas then some ((selectCtl d token).toNat, b) else none

def firstNext : Bool :=
  match transferred d i token with
  | some b => last b
  | none => d.first

def frameNext : Bool :=
  match transferred d i token with
  | some b => !last b
  | none => d.frame

def selectNext : BitVec w :=
  match transferred d i token with
  | some b => if last b then d.select else selectCtl d token
  | none => d.select

/-- The beat at the output of `axis_demux`. -/
def grouped : Option (Nat × β) := front i.outShows d.out

/-- The queue of the replica takes the beat. -/
def groupedReady : Bool :=
  (grouped d i).any fun x => if h : x.1 < replicas then (i.sink ⟨x.1, h⟩).accepts else false

/-- The beat that comes into the queue of a replica. -/
def fifoIn (rid : Fin replicas) : Option β :=
  (grouped d i).bind fun x => if x.1 = rid ∧ (i.sink rid).accepts then some x.2 else none

/-- `m_val_axis`. -/
def output (rid : Fin replicas) : Option β := front (i.sink rid).shows (d.fifo rid)

def next : CtrlDemux replicas w β where
  inFifo := Fifo.next i.port.shows (transferred d i token).isSome d.inFifo i.port.pushed
  first := firstNext last d i token
  frame := frameNext last d i token
  select := selectNext last d i token
  out := Fifo.next i.outShows (groupedReady d i) d.out (entered d i token)
  fifo rid := Fifo.next (i.sink rid).shows (i.sink rid).ready (d.fifo rid) (fifoIn d i rid)

end Signals

/-- The registers after a reset. -/
def init (replicas w : Nat) (β : Type) : CtrlDemux replicas w β where
  inFifo := []
  first := true
  frame := false
  select := 0
  out := []
  fifo _ := []

/-! ## What a demultiplexer is for -/

/-- The frames whose number gives a remainder. -/
def framesOf (replicas rid : Nat) (fs : List (List β)) : List (List β) :=
  (fs.zipIdx.filter fun p => p.2 % replicas = rid).map Prod.fst

/-- Each beat with the replica of its frame, when the first frame has a number. -/
def route (last : β → Bool) (replicas : Nat) : Nat → List β → List (Nat × β)
  | _, [] => []
  | n, b :: bs => (n % replicas, b) :: route last replicas (if last b then n + 1 else n) bs

/-- The beats of a replica. -/
def ofReplica (rid : Nat) (xs : List (Nat × β)) : List β :=
  xs.filterMap fun x => if x.1 = rid then some x.2 else none

section Route

variable {last : β → Bool}

theorem route_append (n : Nat) (bs cs : List β) : route last replicas n (bs ++ cs) =
      route last replicas n bs ++ route last replicas (n + bs.countP last) cs := by
  induction bs generalizing n with
  | nil => rfl
  | cons b bs ih =>
    rw [cons_append, route, route, ih, countP_cons]
    cases last b with
    | false => rfl
    | true => simp [Nat.add_comm 1, Nat.add_assoc]

theorem ofReplica_append (rid : Nat) (xs ys : List (Nat × β)) :
    ofReplica rid (xs ++ ys) = ofReplica rid xs ++ ofReplica rid ys := filterMap_append

/-- The beats of a replica are those of its frames. -/
theorem ofReplica_route (rid n : Nat) (bs : List β) : ofReplica rid (route last replicas n bs) =
      (((frames last bs).zipIdx n).filter fun p => p.2 % replicas = rid).flatMap Prod.fst := by
  induction bs generalizing n with
  | nil => rfl
  | cons b bs ih =>
    by_cases hlast : last b
    · rw [route, frames_cons_of_last hlast, if_pos hlast, zipIdx_cons, filter_cons]
      by_cases hn : n % replicas = rid
      · simp [ofReplica, hn, ← ih]
      · simp [ofReplica, hn, ← ih]
    · have hih := ih n
      rw [route, if_neg hlast]
      cases hbs : frames last bs with
      | nil =>
        have hnil : bs = [] := by
          by_contra hne
          exact frames_ne_nil hne hbs
        rw [hnil, frames, if_neg hlast]
        by_cases hn : n % replicas = rid <;> simp [ofReplica, route, frames, hn]
      | cons f fs =>
        rw [hbs, zipIdx_cons, filter_cons] at hih
        rw [frames_cons_of_not_last hlast hbs, zipIdx_cons, filter_cons]
        by_cases hn : n % replicas = rid
        · simp only [hn, decide_true, if_true, flatMap_cons] at hih ⊢
          rw [cons_append, ← hih]
          simp [ofReplica]
        · simp only [hn, decide_false, Bool.false_eq_true, if_false] at hih ⊢
          rw [← hih]
          simp [ofReplica, hn]

end Route

/-! ## One cycle -/

/-- The beat that leaves for a replica. -/
def sent (rid : Fin replicas) (i : Inputs replicas β) (out : Fin replicas → Option β) : Option β :=
  if (i.sink rid).ready then out rid else none

/-- After the beats `passed` have gone to `axis_demux`, each of them is with its replica, in its
queue or in the output registers. -/
structure Tracks (last : β → Bool) (passed : List β) (received : Fin replicas → List β)
    (d : CtrlDemux replicas w β) : Prop where
  frame : d.frame = !d.first
  first : d.first = !unfinished last passed
  select : d.first = false → d.select.toNat = passed.countP last % replicas
  routed : ∀ rid : Fin replicas, ofReplica rid (route last replicas 0 passed) =
    received rid ++ d.fifo rid ++ ofReplica rid d.out
  bounded : ∀ x ∈ d.out, x.1 < replicas

section Step

variable {last : β → Bool} {passed : List β} {received : Fin replicas → List β}
  {d : CtrlDemux replicas w β} {i : Inputs replicas β} {token : Option (BitVec w)}

theorem token_of_transferred {b : β} (h : transferred d i token = some b) (hfirst : d.first) :
    token.isSome := by
  rw [transferred, if_pos hfirst] at h
  cases htoken : token.isSome with
  | false => simp [htoken] at h
  | true => rfl

theorem transferred_append_inFifo (last : β → Bool) (d : CtrlDemux replicas w β)
    (i : Inputs replicas β) (token : Option (BitVec w)) :
    (transferred d i token).toList ++ (next last d i token).inFifo =
      d.inFifo ++ i.port.pushed.toList := by
  have hpopped : popped i.port.shows (transferred d i token).isSome d.inFifo =
      transferred d i token := by
    rw [popped, transferred]
    cases (i.tready && if d.first then token.isSome else true) <;>
      cases front i.port.shows d.inFifo <;> rfl
  have hq := popped_append_next i.port.shows (transferred d i token).isSome d.inFifo
    i.port.pushed
  rwa [hpopped] at hq

/-- A beat goes to the replica of its frame. -/
theorem Tracks.selectCtl_eq (h : Tracks last passed received d)
    (htoken : d.first → ∀ t ∈ token, t.toNat = passed.countP last % replicas) {b : β}
    (hb : transferred d i token = some b) :
    (selectCtl d token).toNat = passed.countP last % replicas := by
  rw [selectCtl, h.frame]
  cases hfirst : d.first with
  | false => exact h.select hfirst
  | true =>
    obtain ⟨t, ht⟩ := Option.isSome_iff_exists.mp (token_of_transferred hb hfirst)
    rw [ht]
    exact htoken hfirst t ht

theorem Tracks.entered_eq (h : Tracks last passed received d) (hpos : 0 < replicas)
    (htoken : d.first → ∀ t ∈ token, t.toNat = passed.countP last % replicas) :
    (entered d i token).toList =
      route last replicas (passed.countP last) (transferred d i token).toList := by
  rw [entered]
  cases hb : transferred d i token with
  | none => rfl
  | some b =>
    have hselect := h.selectCtl_eq htoken hb
    have hlt : (selectCtl d token).toNat < replicas := hselect ▸ Nat.mod_lt _ hpos
    rw [Option.bind_some, if_pos hlt, hselect]
    rfl

/-- The beat that leaves the output registers comes into the queue of its replica. -/
theorem fifoIn_eq (hbounded : ∀ x ∈ d.out, x.1 < replicas) (rid : Fin replicas) :
    (fifoIn d i rid).toList =
      ofReplica rid (popped i.outShows (groupedReady d i) d.out).toList := by
  rw [fifoIn, popped, groupedReady]
  change _ = ofReplica rid (if (grouped d i).any _ then grouped d i else none).toList
  cases hx : grouped d i with
  | none => rfl
  | some x =>
    have hmem : x ∈ d.out := by
      rw [grouped, front] at hx
      split at hx
      · exact mem_of_mem_head? hx
      · cases hx
    have hlt := hbounded x hmem
    rw [Option.bind_some, Option.any_some, dif_pos hlt]
    by_cases hrid : x.1 = rid
    · have heq : (⟨x.1, hlt⟩ : Fin replicas) = rid := Fin.ext hrid
      rw [heq]
      cases (i.sink rid).accepts <;> simp [ofReplica, hrid]
    · cases (i.sink ⟨x.1, hlt⟩).accepts <;> simp [ofReplica, hrid]

theorem Tracks.next (h : Tracks last passed received d) (hpos : 0 < replicas)
    (htoken : d.first → ∀ t ∈ token, t.toNat = passed.countP last % replicas) :
    Tracks last (passed ++ (transferred d i token).toList)
      (fun rid => received rid ++ (sent rid i (output d i)).toList) (next last d i token) := by
  have hentered := h.entered_eq (i := i) hpos htoken
  refine ⟨?_, ?_, ?_, fun rid => ?_, ?_⟩
  · change frameNext last d i token = !firstNext last d i token
    rw [frameNext, firstNext]
    cases transferred d i token with
    | none => exact h.frame
    | some b => rfl
  · change firstNext last d i token = _
    rw [firstNext]
    cases transferred d i token with
    | none => simpa using h.first
    | some b => simp [unfinished_concat]
  · change firstNext last d i token = false → (selectNext last d i token).toNat = _
    rw [firstNext, selectNext]
    cases hb : transferred d i token with
    | none => simpa using h.select
    | some b =>
      intro hlast
      simp only at hlast ⊢
      rw [if_neg (by simp [hlast]), h.selectCtl_eq htoken hb]
      simp [hlast]
  · have hq := popped_append_next (i.sink rid).shows (i.sink rid).ready (d.fifo rid)
      (fifoIn d i rid)
    have hout := congrArg (ofReplica (rid : Nat)) (popped_append_next i.outShows
      (groupedReady d i) d.out (entered d i token))
    rw [ofReplica_append, ofReplica_append, ← fifoIn_eq h.bounded, hentered] at hout
    change _ ++ ofReplica rid (CtrlDemux.next last d i token).out = _ at hout
    change (sent rid i (output d i)).toList ++ (CtrlDemux.next last d i token).fifo rid = _
      at hq
    rw [route_append, Nat.zero_add, ofReplica_append, h.routed rid, append_assoc, ← hout]
    simp only [append_assoc]
    rw [← append_assoc (d.fifo rid), ← hq]
    simp only [append_assoc]
  · intro x hx
    have hmem := mem_append_right (popped i.outShows (groupedReady d i) d.out).toList hx
    change x ∈ _ ++ Fifo.next _ _ _ _ at hmem
    rw [popped_append_next, hentered] at hmem
    rcases mem_append.mp hmem with hmem | hmem
    · exact h.bounded x hmem
    · cases hb : transferred d i token with
      | none =>
        rw [hb] at hmem
        cases hmem
      | some b =>
        rw [hb] at hmem
        obtain rfl := mem_singleton.mp hmem
        exact Nat.mod_lt _ hpos

end Step

end CtrlDemux

end Alkali.Fpga
