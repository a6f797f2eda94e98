import Alkali.Fpga.CtrlDemux
import Alkali.Fpga.Replication
import Mathlib.Tactic

/-!
# The module `ctrl_dispatcher` and the controllers with several destinations

A controller has a demultiplexer for each channel of an event. `ctrl_dispatcher` counts round
the replicas and hands each number, through `axis_replication`, to all demultiplexers. A
channel may run ahead of the others as far as the queues of numbers reach.
-/

namespace Alkali.Fpga

open Synchronous List Circuit Fifo Option CtrlDemux

/-- `DISPATCH_WIDTH`. -/
def dispatchWidth (replicas : Nat) : Nat := Nat.clog 2 replicas

/-- The registers of the dispatcher, the queues of its `axis_replication` and the
demultiplexers. -/
structure Dispatcher (replicas channels : Nat) (β : Type) where
  rrCounter : BitVec 10
  selectorValid : Bool
  tokens : Fin channels → List (Beat (dispatchWidth replicas) 1)
  demux : Fin channels → CtrlDemux replicas (dispatchWidth replicas) β

namespace Dispatcher

variable {replicas channels : Nat} {β : Type}

/-- What the queue of numbers of a channel does in the cycle, and the inputs of the
demultiplexer. A queue accepts as long as it has less than 16 entries; registers behind it may
give it more room. -/
structure Channel (replicas : Nat) (β : Type) where
  tokenRoom : Bool
  tokenShows : Bool
  demux : CtrlDemux.Inputs replicas β

abbrev Inputs (replicas channels : Nat) (β : Type) := Fin channels → Channel replicas β

abbrev Outputs (replicas channels : Nat) (β : Type) := Fin channels → Fin replicas → Option β

section Signals

variable (s : Dispatcher replicas channels β) (i : Inputs replicas channels β) (c : Fin channels)

/-- `m_dispatcher`. -/
def token : Option (BitVec (dispatchWidth replicas)) :=
  (front (i c).tokenShows (s.tokens c)).map Beat.tdata

/-- `replicate_selector`. -/
def selector : Option (Beat (dispatchWidth replicas) 1) :=
  if s.selectorValid then some ⟨s.rrCounter.setWidth _, 0, false⟩ else none

def replicationInputs : Replication.Inputs channels (dispatchWidth replicas) 1 where
  axis := selector s
  out c := ⟨decide ((s.tokens c).length < 16) || (i c).tokenRoom, (i c).tokenShows,
    (s.demux c).tokenReady (i c).demux (token s i c)⟩

/-- The number goes to all queues. -/
def dispatches : Bool := s.selectorValid && Replication.ready (replicationInputs s i)

/-- A channel takes a number off its queue. -/
abbrev takes : Bool := (s.demux c).tokenReady (i c).demux (token s i c)

/-- The beat that a channel passes to its replicas. -/
abbrev moved : Option β := (s.demux c).transferred (i c).demux (token s i c)

def output : Outputs replicas channels β := fun c => (s.demux c).output (i c).demux

end Signals

def next (last : Fin channels → β → Bool) (s : Dispatcher replicas channels β)
    (i : Inputs replicas channels β) : Dispatcher replicas channels β where
  rrCounter :=
    if dispatches s i then if s.rrCounter.toNat = replicas - 1 then 0 else s.rrCounter + 1
    else s.rrCounter
  selectorValid := true
  tokens := Replication.next false s.tokens (replicationInputs s i)
  demux c := (s.demux c).next (last c) (i c).demux (token s i c)

/-- The controller after a reset, which does not load `replicate_selector_tvalid`. -/
def dispatcher (replicas channels : Nat) (last : Fin channels → β → Bool) (valid : Bool) :
    Circuit (Dispatcher replicas channels β) (Inputs replicas channels β)
      (Outputs replicas channels β) where
  init := ⟨0, valid, fun _ => [], fun _ => init replicas _ β⟩
  output := output
  next := next last

/-! ## What a controller is for -/

/-- The beat that a channel accepts. -/
def accepted (c : Fin channels) (i : Inputs replicas channels β)
    (_ : Outputs replicas channels β) : Option β := (i c).demux.port.pushed

/-- The beat of a channel that a replica gets. -/
def received (c : Fin channels) (rid : Fin replicas) (i : Inputs replicas channels β)
    (o : Outputs replicas channels β) : Option β := sent rid (i c).demux (o c)

section Spec

variable (last : Fin channels → β → Bool)
  (h : List (Inputs replicas channels β × Outputs replicas channels β))

/-- The frames of a channel. -/
def framesIn (c : Fin channels) : List (List β) :=
  frames (last c) (transfers (accepted c) h)

/-- The beats of a channel that a replica should get: those of the frames whose number gives
the replica. -/
def expected (c : Fin channels) (rid : Fin replicas) : List β :=
  (framesOf replicas rid (framesIn last h c)).flatten

/-- Each replica gets the beats of its frames in order. -/
def InOrder : Prop := ∀ c rid, transfers (received c rid) h <+: expected last h c rid

/-- Each replica has got its frames. -/
def Delivered : Prop := ∀ c rid, transfers (received c rid) h = expected last h c rid

/-- No channel is more than 16 frames ahead of another one. -/
def Level : Prop := ∀ c c', (framesIn last h c).length ≤ (framesIn last h c').length + 16

end Spec

/-- Nothing is accepted, and whatever can move moves. -/
def Quiet (i : Inputs replicas channels β) : Prop :=
  ∀ c, (i c).tokenShows ∧ (i c).demux.port.pushed = none ∧ (i c).demux.port.shows ∧
    (i c).demux.tready ∧ (i c).demux.outShows ∧
    ∀ rid, ((i c).demux.sink rid).accepts ∧ ((i c).demux.sink rid).shows ∧
      ((i c).demux.sink rid).ready

/-! ## The numbers -/

/-- The number of the replica for a frame. -/
def number (replicas k : Nat) : BitVec (dispatchWidth replicas) :=
  BitVec.ofNat _ (k % replicas)

theorem toNat_number {replicas : Nat} (hpos : 0 < replicas) (k : Nat) :
    (number replicas k).toNat = k % replicas := by
  have hlt : k % replicas < 2 ^ dispatchWidth replicas :=
    (Nat.mod_lt k hpos).trans_le (Nat.le_pow_clog Nat.one_lt_two replicas)
  rw [number, BitVec.toNat_ofNat, Nat.mod_eq_of_lt hlt]

variable (last : β → Bool) (passed : List β)

/-- The frames of a channel that have begun. -/
def started : Nat :=
  passed.countP last + (unfinished last passed).toNat

theorem started_concat (b : β) : started last (passed ++ [b]) = passed.countP last + 1 := by
  rw [started, unfinished_concat, countP_append, countP_singleton]
  cases last b <;> simp

/-- The counter goes round. -/
theorem counter_next {replicas g : Nat} (hpos : 0 < replicas) (hle : replicas ≤ 1024)
    {rr : BitVec 10} (hrr : rr.toNat = g % replicas) :
    (if rr.toNat = replicas - 1 then 0 else rr + 1 : BitVec 10).toNat = (g + 1) % replicas := by
  have hlt := Nat.mod_lt g hpos
  rw [← Nat.mod_add_mod]
  by_cases hend : rr.toNat = replicas - 1
  · have hsum : g % replicas + 1 = replicas := by omega
    rw [if_pos hend, hsum, Nat.mod_self]
    rfl
  · have hsum : g % replicas + 1 < replicas := by omega
    rw [if_neg hend, Nat.mod_eq_of_lt hsum, BitVec.toNat_add, hrr]
    exact Nat.mod_eq_of_lt (by simp; omega)

/-! ## Runs -/

section Run

variable {last : Fin channels → β → Bool}
  {h : List (Inputs replicas channels β × Outputs replicas channels β)}
  {s : Dispatcher replicas channels β} {i : Inputs replicas channels β}

/-- The queue of a channel has the numbers of the frames that have not begun. -/
structure Aligned (last : β → Bool) (g : Nat) (passed : List β)
    (tokens : List (Beat (dispatchWidth replicas) 1)) : Prop where
  le : started last passed ≤ g
  numbers : tokens.map Beat.tdata = ((range g).map (number replicas)).drop (started last passed)

/-- After `g` numbers, each channel has passed some of its beats. -/
structure Inv (last : Fin channels → β → Bool)
    (h : List (Inputs replicas channels β × Outputs replicas channels β))
    (s : Dispatcher replicas channels β) (g : Nat) (passed : Fin channels → List β) : Prop where
  counter : s.rrCounter.toNat = g % replicas
  queue : ∀ c, transfers (accepted c) h = passed c ++ (s.demux c).inFifo
  tracks : ∀ c, CtrlDemux.Tracks (last c) (passed c)
    (fun rid => transfers (received c rid) h) (s.demux c)
  aligned : ∀ c, Aligned (last c) g (passed c) (s.tokens c)

variable {g : Nat} {passed : Fin channels → List β}
variable {tokens : List (Beat (dispatchWidth replicas) 1)} {t : BitVec (dispatchWidth replicas)}
  {c : Fin channels}

theorem Aligned.length_eq {last : β → Bool} {passed : List β} (ha : Aligned last g passed tokens) :
    tokens.length = g - started last passed := by
  have hlen := congrArg length ha.numbers
  simpa using hlen

theorem Aligned.head? {last : β → Bool} {passed : List β} (ha : Aligned last g passed tokens)
    (ht : (tokens.map Beat.tdata).head? = some t) :
    started last passed < g ∧ t = number replicas (started last passed) := by
  rw [ha.numbers, head?_drop, getElem?_map, map_eq_some_iff] at ht
  obtain ⟨k, hk, rfl⟩ := ht
  obtain ⟨hlt, rfl⟩ := List.getElem?_eq_some_iff.mp hk
  rw [length_range] at hlt
  exact ⟨hlt, by rw [getElem_range]⟩

/-- The number at the front of the queue is the one of the next frame. -/
theorem Inv.token_eq (hinv : Inv last h s g passed) (ht : token s i c = some t) :
    started (last c) (passed c) < g ∧ t = number replicas (started (last c) (passed c)) := by
  refine (hinv.aligned c).head? ?_
  rw [token, front] at ht
  split at ht
  · rwa [head?_map]
  · cases ht

/-- A frame that begins takes its number. -/
theorem Inv.started_next (hinv : Inv last h s g passed) (c : Fin channels) :
    started (last c) (passed c ++ (moved s i c).toList) =
      started (last c) (passed c) + (takes s i c).toNat := by
  rw [takes, tokenReady, ← moved]
  cases hb : moved s i c with
  | none => simp
  | some b =>
    rw [toList_some, started_concat, (hinv.tracks c).first, started]
    cases unfinished (last c) (passed c) <;> simp

/-- What the queues of numbers get. -/
theorem fifoIn_tdata (hrr : s.rrCounter.toNat = g % replicas) :
    (Replication.fifoIn false (replicationInputs s i)).map Beat.tdata =
      if dispatches s i then some (number replicas g) else none := by
  have hdata : s.rrCounter.setWidth _ = number replicas g := by
    rw [number, ← hrr]
    exact BitVec.eq_of_toNat_eq (by simp)
  rw [Replication.fifoIn, dispatches]
  cases Replication.ready (replicationInputs s i) <;> cases hvalid : s.selectorValid <;>
    simp [replicationInputs, selector, hvalid, hdata, Beat.wrapped]

/-- The number that leaves the queue of a channel. -/
theorem popped_tdata (c : Fin channels) :
    (popped (i c).tokenShows (takes s i c) (s.tokens c)).map Beat.tdata =
      if takes s i c then token s i c else none := by
  rw [popped]
  split <;> rfl

theorem token_of_takes (hrdy : takes s i c) : (token s i c).isSome := by
  rw [takes, tokenReady, Bool.and_eq_true] at hrdy
  obtain ⟨b, hb⟩ := isSome_iff_exists.mp hrdy.2
  exact token_of_transferred hb hrdy.1

theorem Inv.aligned_next (hinv : Inv last h s g passed) (c : Fin channels) :
    Aligned (last c) (g + (dispatches s i).toNat) (passed c ++ (moved s i c).toList)
      ((next last s i).tokens c) := by
  obtain ⟨hle, hnumbers⟩ := hinv.aligned c
  have hq := congrArg (map Beat.tdata) (popped_append_next (i c).tokenShows
    (takes s i c) (s.tokens c) (Replication.fifoIn false (replicationInputs s i)))
  rw [map_append, map_append, ← toList_map, ← toList_map,
    fifoIn_tdata hinv.counter, popped_tdata, hnumbers] at hq
  change _ ++ ((next last s i).tokens c).map Beat.tdata = _ at hq
  have hstarted := hinv.started_next (i := i) c
  -- a number leaves the queue when a frame begins
  have htaken : started (last c) (passed c) + (takes s i c).toNat ≤ g ∧
      ((next last s i).tokens c).map Beat.tdata = ((range g).map (number replicas)).drop
          (started (last c) (passed c) + (takes s i c).toNat) ++
        (if dispatches s i then some (number replicas g) else none).toList := by
    cases hrdy : takes s i c with
    | false =>
      rw [hrdy] at hq
      exact ⟨hle, hq⟩
    | true =>
      obtain ⟨t, ht⟩ := isSome_iff_exists.mp (token_of_takes hrdy)
      obtain ⟨hlt, rfl⟩ := hinv.token_eq ht
      refine ⟨hlt, ?_⟩
      have hdrop : ((range g).map (number replicas)).drop (started (last c) (passed c)) =
          number replicas (started (last c) (passed c)) :: ((range g).map (number replicas)).drop
              (started (last c) (passed c) + 1) := by
        rw [drop_eq_getElem_cons (by simpa using hlt)]
        simp
      rw [hrdy, if_pos rfl, ht, hdrop] at hq
      exact (cons.inj hq).2
  constructor
  · rw [hstarted]
    exact htaken.1.trans (Nat.le_add_right _ _)
  · rw [hstarted, htaken.2]
    cases dispatches s i with
    | false => simp
    | true =>
      rw [Bool.toNat_true, range_succ, map_append,
        drop_append_of_le_length (by simpa using htaken.1)]
      rfl

theorem Inv.started_of_first (hinv : Inv last h s g passed) (hfirst : (s.demux c).first) :
    started (last c) (passed c) = (passed c).countP (last c) := by
  rw [(hinv.tracks c).first, Bool.not_eq_true'] at hfirst
  rw [started, hfirst]
  rfl

theorem inv_step (hpos : 0 < replicas) (hle : replicas ≤ 1024) (hinv : Inv last h s g passed) :
    Inv last (h ++ [(i, output s i)]) (next last s i) (g + (dispatches s i).toNat)
      fun c => passed c ++ (moved s i c).toList := by
  have htoken : ∀ c, (s.demux c).first → ∀ t ∈ token s i c,
      t.toNat = (passed c).countP (last c) % replicas := by
    intro c hfirst t ht
    rw [(hinv.token_eq ht).2, toNat_number hpos, hinv.started_of_first hfirst]
  constructor
  · change (if dispatches s i then _ else s.rrCounter : BitVec 10).toNat = _
    cases dispatches s i with
    | false => exact hinv.counter
    | true => exact counter_next hpos hle hinv.counter
  · intro c
    rw [transfers_concat, hinv.queue c, append_assoc, append_assoc]
    exact congrArg _ (transferred_append_inFifo (last c) _ _ _).symm
  · intro c
    have htracks := (hinv.tracks c).next (i := (i c).demux) hpos (htoken c)
    simp only [transfers_concat]
    exact htracks
  · exact hinv.aligned_next

theorem inv_run (last : Fin channels → β → Bool) (hpos : 0 < replicas) (hle : replicas ≤ 1024)
    (valid : Bool) (inputs : List (Inputs replicas channels β)) :
    ∃ g passed, Inv last ((dispatcher replicas channels last valid).trace inputs)
      ((dispatcher replicas channels last valid).run inputs) g passed := by
  refine Circuit.invariant (P := fun h s => ∃ g passed, Inv last h s g passed) ?_ ?_
    (along_true inputs)
  · refine ⟨0, fun _ => [], ?_, fun _ => rfl, fun c => ?_, fun c => ⟨Nat.le_refl 0, rfl⟩⟩
    · exact (Nat.zero_mod _).symm
    · exact ⟨rfl, rfl, by simp [dispatcher, CtrlDemux.init], fun _ => rfl,
        by simp [dispatcher, CtrlDemux.init]⟩
  · rintro h s i ⟨g, passed, hinv⟩ _
    exact ⟨_, _, inv_step hpos hle hinv⟩

end Run

/-! ## Progress -/

variable {bs : List β}

theorem started_append (h : bs ≠ []) :
    started last (passed ++ bs) = passed.countP last + started last bs := by
  obtain ⟨b, rest, rfl⟩ := exists_cons_of_ne_nil h
  rw [started, started, countP_append, Nat.add_assoc]
  congr 2
  simp [unfinished, getLast?_cons]

theorem length_frames (bs : List β) : (frames last bs).length = started last bs := by
  induction bs with
  | nil => rfl
  | cons b bs ih =>
    by_cases hbs : bs = []
    · subst hbs
      cases hlast : last b <;> simp [frames, started, unfinished, hlast]
    · have hstarted := started_append last [b] hbs
      rw [singleton_append, countP_singleton] at hstarted
      by_cases hlast : last b
      · rw [frames_cons_of_last hlast, length_cons, ih, hstarted, if_pos hlast, Nat.add_comm]
      · have hne : frames last bs ≠ [] := frames_ne_nil hbs
        obtain ⟨f, fs, hfs⟩ := exists_cons_of_ne_nil hne
        rw [frames_cons_of_not_last hlast hfs, hstarted, if_neg hlast, ← ih, hfs]
        simp

theorem started_pos (h : bs ≠ []) : 0 < started last bs := by
  rw [← length_frames]
  exact length_pos_iff.mpr (frames_ne_nil h)

/-- The frames in the input queue of a demultiplexer that have not begun. -/
def waiting {w : Nat} (last : β → Bool) (d : CtrlDemux replicas w β) : Nat :=
  started last d.inFifo - (!d.first).toNat

section Demux

variable {w : Nat} (last : β → Bool) {d : CtrlDemux replicas w β}
  {i : CtrlDemux.Inputs replicas β} (token : Option (BitVec w))

/-- A frame that begins does not wait any more. -/
theorem waiting_next (hpushed : i.port.pushed = none) :
    waiting last (d.next last i token) + (d.tokenReady i token).toNat = waiting last d := by
  have hq := transferred_append_inFifo last d i token
  rw [hpushed, toList_none, append_nil] at hq
  have hfirst : (d.next last i token).first = d.firstNext last i token := rfl
  rw [waiting, waiting, hfirst, firstNext, tokenReady, ← hq]
  cases d.transferred i token with
  | none => simp
  | some b =>
    cases hin : (d.next last i token).inFifo with
    | nil => cases hlast : last b <;> cases d.first <;> simp [started, unfinished, hlast]
    | cons b' rest =>
      have hstarted := started_append last [b] (cons_ne_nil b' rest)
      have hpos := started_pos last (cons_ne_nil b' rest)
      simp only [toList_some, hstarted, countP_singleton, isSome_some, Bool.and_true]
      cases hlast : last b <;> cases d.first <;> simp <;> omega

/-- The steps left for the beats in a demultiplexer. -/
def work (d : CtrlDemux replicas w β) : Nat :=
  3 * d.inFifo.length + 2 * d.out.length + ((finRange replicas).flatMap d.fifo).length

theorem length_fifoIn (d : CtrlDemux replicas w β) (i : CtrlDemux.Inputs replicas β) :
    ((finRange replicas).flatMap fun rid => (d.fifoIn i rid).toList).length ≤
      (d.grouped i).toList.length := by
  cases hx : d.grouped i with
  | none => simp [fifoIn, hx]
  | some x =>
    refine Fifo.length_flatMap_le_one fun rid rid' hrid hrid' => Fin.ext ?_
    simp only [fifoIn, hx, bind_some, isSome_ite] at hrid hrid'
    exact hrid.1.symm.trans hrid'.1

/-- A quiet cycle moves each beat that it can move. -/
theorem work_next (hbounded : ∀ x ∈ d.out, x.1 < replicas) (hpushed : i.port.pushed = none)
    (hshows : i.outShows)
    (hsink : ∀ rid, (i.sink rid).accepts ∧ (i.sink rid).shows ∧ (i.sink rid).ready) :
    work (d.next last i token) + (d.transferred i token).toList.length + min 1 (work d -
      3 * d.inFifo.length) ≤ work d := by
  have hin := congrArg length (transferred_append_inFifo last d i token)
  rw [hpushed, toList_none, append_nil, length_append] at hin
  have hgrouped : d.grouped i = d.out.head? := by rw [grouped, front, if_pos hshows]
  have hrdy : d.groupedReady i = d.out.head?.isSome := by
    rw [groupedReady, hgrouped]
    cases hout : d.out with
    | nil => rfl
    | cons x xs =>
      have hlt := hbounded x (hout ▸ mem_cons_self)
      simp [hlt, (hsink ⟨x.1, hlt⟩).1]
  have hout := congrArg length (popped_append_next i.outShows (d.groupedReady i) d.out
    (d.entered i token))
  rw [length_append, length_append] at hout
  change _ + (d.next last i token).out.length = _ at hout
  have hpopped : (popped i.outShows (d.groupedReady i) d.out).toList.length =
      min 1 d.out.length := by
    rw [popped, hrdy, front, if_pos hshows]
    cases d.out <;> simp
  have hentered : (d.entered i token).toList.length ≤ (d.transferred i token).toList.length := by
    rw [entered]
    cases d.transferred i token with
    | none => simp
    | some b => exact length_toList_le
  have hfifo := Fifo.length_flatMap_next d.fifo (d.next last i token).fifo (d.fifoIn i)
    fun rid => by
      change Fifo.next _ _ _ _ = _
      rw [(hsink rid).2.1, (hsink rid).2.2]
  have hfifoIn := length_fifoIn d i
  have hlen : d.out.head?.toList.length = min 1 d.out.length := by cases d.out <;> simp
  rw [hgrouped, hlen] at hfifoIn
  rw [work, work]
  omega

end Demux

section Rank

variable {last : Fin channels → β → Bool}
  {h : List (Inputs replicas channels β × Outputs replicas channels β)}
  {s : Dispatcher replicas channels β} {i : Inputs replicas channels β} {g : Nat}
  {passed : Fin channels → List β}

/-- The steps left for a channel: those of its beats, and the numbers that are missing. -/
def cost (last : Fin channels → β → Bool) (s : Dispatcher replicas channels β)
    (c : Fin channels) : Nat :=
  work (s.demux c) + (waiting (last c) (s.demux c) - (s.tokens c).length)

def rank (last : Fin channels → β → Bool) (s : Dispatcher replicas channels β) : Nat :=
  ∑ c, cost last s c + (!s.selectorValid).toNat

theorem cost_next (hinv : Inv last h s g passed) (hquiet : Quiet i) (c : Fin channels) :
    cost last (next last s i) c + (moved s i c).toList.length +
        min 1 (work (s.demux c) - 3 * (s.demux c).inFifo.length) +
        min (dispatches s i).toNat (waiting (last c) (s.demux c) - (s.tokens c).length) ≤
      cost last s c := by
  obtain ⟨-, hpushed, -, -, hshows, hsink⟩ := hquiet c
  have hwork := work_next (last c) (token s i c) (hinv.tracks c).bounded hpushed hshows hsink
  have hwaiting := waiting_next (last c) (d := s.demux c) (token s i c) hpushed
  have htokens := (hinv.aligned_next (i := i) c).length_eq
  have hle := (hinv.aligned_next (i := i) c).le
  have hle' := (hinv.aligned c).le
  have hlen := (hinv.aligned c).length_eq
  rw [hinv.started_next] at htokens hle
  change work ((s.demux c).next (last c) (i c).demux (token s i c)) +
    (waiting (last c) ((s.demux c).next (last c) (i c).demux (token s i c)) -
      ((next last s i).tokens c).length) + _ + _ + _ ≤ _
  rw [← moved] at hwork
  rw [← takes] at hwaiting
  rw [cost]
  omega

/-- In a quiet cycle a beat moves, unless it is the first of a frame without a number. -/
theorem stuck_of_moved (hquiet : Quiet i) {c : Fin channels} (hin : (s.demux c).inFifo ≠ [])
    (hnone : moved s i c = none) : (s.demux c).first ∧ s.tokens c = [] := by
  obtain ⟨htoken, -, hshows, htready, -, -⟩ := hquiet c
  obtain ⟨b, bs, hbs⟩ := exists_cons_of_ne_nil hin
  rw [moved, transferred, htready, Bool.true_and, front, if_pos hshows, hbs] at hnone
  cases hfirst : (s.demux c).first with
  | false => simp [hfirst] at hnone
  | true =>
    refine ⟨rfl, ?_⟩
    rw [hfirst, token, front, if_pos htoken] at hnone
    cases htokens : s.tokens c with
    | nil => rfl
    | cons t ts => simp [htokens] at hnone

/-- If nothing else can move, the next number goes to all channels: a channel that waits for it
is ahead of all others. -/
theorem dispatches_of_stuck (hinv : Inv last h s g passed) (hlevel : Level last h)
    (hvalid : s.selectorValid) {c₀ : Fin channels} (hin : (s.demux c₀).inFifo ≠ [])
    (hfirst : (s.demux c₀).first) (htokens : s.tokens c₀ = [])
    (hstuck : ∀ c, (s.demux c).inFifo ≠ [] → s.tokens c = []) : dispatches s i := by
  have hrdy : ∀ c, (s.tokens c).length < 16 := by
    intro c
    by_cases hc : (s.demux c).inFifo = []
    · have hle := hlevel c₀ c
      rw [framesIn, framesIn, length_frames, length_frames, hinv.queue c₀, hinv.queue c, hc,
        append_nil, started_append (last c₀) (passed c₀) hin] at hle
      have hpos := started_pos (last c₀) hin
      have hstarted := hinv.started_of_first hfirst
      have hzero := (hinv.aligned c₀).length_eq
      have hlen := (hinv.aligned c).length_eq
      rw [htokens, length_nil] at hzero
      omega
    · rw [hstuck c hc]
      exact Nat.zero_lt_succ 15
  simp [dispatches, hvalid, Replication.ready, replicationInputs, hrdy]

theorem rank_next (hinv : Inv last h s g passed) (hlevel : Level last h) (hquiet : Quiet i) :
    rank last (next last s i) ≤ rank last s - 1 := by
  have hcost := cost_next hinv hquiet
  have hle : ∀ c ∈ Finset.univ, cost last (next last s i) c ≤ cost last s c := by
    intro c _
    have hc := hcost c
    omega
  have hnext : rank last (next last s i) = ∑ c, cost last (next last s i) c := rfl
  rw [hnext, rank]
  cases hvalid : s.selectorValid with
  | false => exact Finset.sum_le_sum hle
  | true =>
    by_cases hzero : ∀ c, cost last s c = 0
    · have hsum : ∑ c, cost last (next last s i) c ≤ ∑ c, cost last s c := Finset.sum_le_sum hle
      rw [Finset.sum_eq_zero fun c _ => hzero c] at hsum ⊢
      exact hsum
    · refine Nat.le_sub_one_of_lt (Finset.sum_lt_sum hle ?_)
      by_cases hmoves : ∃ c, 0 < (moved s i c).toList.length ∨
          0 < work (s.demux c) - 3 * (s.demux c).inFifo.length
      · obtain ⟨c, hc⟩ := hmoves
        have hcost := hcost c
        exact ⟨c, Finset.mem_univ c, by omega⟩
      · have hnone : ∀ c, moved s i c = none := by
          intro c
          have hlen := fun hpos => hmoves ⟨c, Or.inl hpos⟩
          cases hb : moved s i c with
          | none => rfl
          | some b => simp [hb] at hlen
        obtain ⟨c, hc⟩ := not_forall.mp hzero
        have hrest := fun hpos => hmoves ⟨c, Or.inr hpos⟩
        have hin : (s.demux c).inFifo ≠ [] := by
          intro hnil
          rw [hnil, length_nil, Nat.mul_zero, Nat.sub_zero] at hrest
          refine hc ?_
          rw [cost, waiting, hnil, Nat.eq_zero_of_not_pos hrest]
          simp [started, unfinished]
        obtain ⟨hfirst, htokens⟩ := stuck_of_moved hquiet hin (hnone c)
        have hdispatches : dispatches s i := dispatches_of_stuck hinv hlevel hvalid hin hfirst
          htokens fun c' hc' => (stuck_of_moved hquiet hc' (hnone c')).2
        have hpos := started_pos (last c) hin
        have hcost := hcost c
        rw [hdispatches, htokens, waiting, hfirst] at hcost
        refine ⟨c, Finset.mem_univ c, ?_⟩
        simp only [Bool.toNat_true, Bool.not_true, Bool.toNat_false, length_nil] at hcost
        omega

theorem empty_of_rank_zero (hzero : rank last s = 0) (c : Fin channels) :
    (s.demux c).inFifo = [] ∧ (s.demux c).out = [] ∧ ∀ rid, (s.demux c).fifo rid = [] := by
  have hsum : ∑ c, cost last s c = 0 := Nat.eq_zero_of_add_eq_zero_right hzero
  have hcost := Finset.sum_eq_zero_iff.mp hsum c (Finset.mem_univ c)
  rw [cost, work] at hcost
  refine ⟨length_eq_zero_iff.mp (by omega), length_eq_zero_iff.mp (by omega), ?_⟩
  have hfifo : (finRange replicas).flatMap (s.demux c).fifo = [] :=
    length_eq_zero_iff.mp (by omega)
  exact fun rid => flatMap_eq_nil_iff.mp hfifo rid (mem_finRange rid)

end Rank

section Deliver

variable {last : Fin channels → β → Bool}

theorem expected_eq (h : List (Inputs replicas channels β × Outputs replicas channels β))
    (c : Fin channels) (rid : Fin replicas) : expected last h c rid = ofReplica rid
        (route (last c) replicas 0 (transfers (accepted c) h)) := by
  rw [ofReplica_route, expected, framesOf, framesIn, flatMap_def]

/-- In every run each replica gets the beats of its frames in order. If no channel is far ahead
of another one, it gets all of them as soon as nothing stalls. -/
theorem dispatcher_delivers (replicas channels : Nat) (hpos : 2 ≤ replicas)
    (hle : replicas ≤ 1024) (last : Fin channels → β → Bool) (valid : Bool)
    (inputs : List (Inputs replicas channels β)) :
    let c := dispatcher replicas channels last valid
    InOrder last (c.trace inputs) ∧
      ∃ m, Level last (c.trace inputs) → ∀ rest : List (Inputs replicas channels β),
        (∀ i ∈ rest, Quiet i) → m ≤ rest.length → Delivered last (c.trace (inputs ++ rest)) := by
  intro circuit
  have hpos : 0 < replicas := Nat.zero_lt_of_lt hpos
  refine ⟨fun c rid => ?_, rank last (circuit.run inputs), fun hlevel rest hrest hlen => ?_⟩
  · obtain ⟨g, passed, hinv⟩ := inv_run last hpos hle valid inputs
    rw [expected_eq, hinv.queue c, route_append, ofReplica_append,
      (hinv.tracks c).routed rid, append_assoc, append_assoc]
    exact prefix_append _ _
  · have hstep : ∀ is i, (∀ c, transfers (accepted c) (circuit.trace is) =
        transfers (accepted c) (circuit.trace inputs)) → Quiet i →
        (∀ c, transfers (accepted c) (circuit.trace (is ++ [i])) =
          transfers (accepted c) (circuit.trace inputs)) ∧
        rank last (circuit.next (circuit.run is) i) ≤ rank last (circuit.run is) - 1 := by
      intro is i hsame hquiet
      constructor
      · intro c
        rw [trace_concat, transfers_concat, hsame c, accepted, (hquiet c).2.1]
        exact append_nil _
      · obtain ⟨g, passed, hinv⟩ := inv_run last hpos hle valid is
        refine rank_next hinv (fun c c' => ?_) hquiet
        rw [framesIn, framesIn]
        change (frames _ (transfers _ (circuit.trace is))).length ≤
          (frames _ (transfers _ (circuit.trace is))).length + 16
        rw [hsame c, hsame c']
        exact hlevel c c'
    obtain ⟨hsame, hrank⟩ := rank_append (rank last) hstep (fun _ => rfl) hrest
    have hzero : rank last (circuit.run (inputs ++ rest)) = 0 :=
      Nat.eq_zero_of_le_zero (hrank.trans (Nat.sub_eq_zero_of_le hlen).le)
    intro c rid
    obtain ⟨g, passed, hinv⟩ := inv_run last hpos hle valid (inputs ++ rest)
    obtain ⟨hin, hout, hfifo⟩ := empty_of_rank_zero hzero c
    have hq : transfers (accepted c) (circuit.trace (inputs ++ rest)) =
        passed c ++ ((circuit.run (inputs ++ rest)).demux c).inFifo := hinv.queue c
    have hrouted : ofReplica rid (route (last c) replicas 0 (passed c)) =
        transfers (received c rid) (circuit.trace (inputs ++ rest)) ++
          ((circuit.run (inputs ++ rest)).demux c).fifo rid ++
          ofReplica rid ((circuit.run (inputs ++ rest)).demux c).out :=
      (hinv.tracks c).routed rid
    rw [hin, append_nil] at hq
    rw [hfifo rid, hout, append_nil] at hrouted
    rw [expected_eq, hq, hrouted]
    exact (append_nil _).symm

end Deliver

/-- Two channels and two replicas. The first channel has two frames, the first of two beats;
the second channel has two values. -/
theorem dispatcher_delivers_two_events :
    let last : Fin 2 → Fin 4 × Bool → Bool := fun c b => c == 1 || b.2
    let cycle : Option (Fin 4 × Bool) → Option (Fin 4 × Bool) → Inputs 2 2 (Fin 4 × Bool) :=
      fun b b' c => ⟨false, true, ⟨⟨if c = 0 then b else b', true, true⟩, true, true,
        fun _ => ⟨true, true, true⟩⟩⟩
    let inputs := [cycle (some (0, false)) (some (3, true)), cycle (some (1, true)) none,
      cycle (some (2, true)) (some (0, true))]
    let c := dispatcher 2 2 last true
    let h := c.trace (inputs ++ replicate 5 (cycle none none))
    transfers (received 0 0) h = [(0, false), (1, true)] ∧
      transfers (received 0 1) h = [(2, true)] ∧
      transfers (received 1 0) h = [(3, true)] ∧
      transfers (received 1 1) h = [(0, true)] ∧
      InOrder last (c.trace inputs) ∧
      ∃ m, Level last (c.trace inputs) → ∀ rest : List (Inputs 2 2 (Fin 4 × Bool)),
        (∀ i ∈ rest, Quiet i) → m ≤ rest.length → Delivered last (c.trace (inputs ++ rest)) := by
  intro last cycle inputs c h
  exact ⟨by decide +kernel, by decide +kernel, by decide +kernel, by decide +kernel,
    dispatcher_delivers 2 2 (by decide) (by decide) last true inputs⟩

end Dispatcher

end Alkali.Fpga
