import Alkali.Fpga.CtrlMux
import Alkali.Fpga.Guard
import Mathlib.Tactic

/-!
# The module `ctrl_selector` and the controllers with several sources

A controller has a multiplexer for each argument of an event. `ctrl_selector` counts the
beats of the first arguments, lets an arbiter choose among the sources, and hands each choice
to all multiplexers. The counters have eight bits.
-/

namespace Alkali.Fpga

open Synchronous Circuit

/-- The counters and the registers of the arbiter. -/
structure CtrlSelector (sources : Nat) where
  count : Fin sources → BitVec 8
  grant : Option (Fin sources)
  mask : Fin sources → Bool

namespace CtrlSelector

variable {sources : Nat}

/-- `priority_encoder`, with the highest priority at the lowest bit. -/
def priorityEncoder (request : Fin sources → Bool) : Option (Fin sources) :=
  (List.finRange sources).find? request

/-- The round robin of the arbiter: first those above the last grant. -/
def arbitrate (mask request : Fin sources → Bool) : Option (Fin sources) :=
  (priorityEncoder fun rid => request rid && mask rid).or (priorityEncoder request)

variable (s : CtrlSelector sources)

/-- `arbiter_valid_array & ~grant`. -/
def request (ready : Bool) (rid : Fin sources) : Bool :=
  decide (0 < s.count rid) && ready && decide (s.grant ≠ some rid)

/-- The token that goes to the replicas. -/
def token (ready : Bool) : Option (Fin sources) :=
  if ready then s.grant else none

/-- The counter of a source after a cycle. -/
def countNext (count : BitVec 8) (inc dec : Bool) : BitVec 8 :=
  if inc && !dec then count + 1 else if !inc && dec then count - 1 else count

def next (inc : Fin sources → Bool) (ready : Bool) : CtrlSelector sources where
  count rid := countNext (s.count rid) (inc rid) (decide (s.token ready = some rid))
  grant := arbitrate s.mask (s.request ready)
  mask := match arbitrate s.mask (s.request ready) with
    | some rid => fun r => decide (rid < r)
    | none => s.mask

/-! ## The arbiter -/

variable {request : Fin sources → Bool}

theorem priorityEncoder_eq_none : priorityEncoder request = none ↔ ∀ rid, request rid = false := by
  simp [priorityEncoder]

variable {mask : Fin sources → Bool}

theorem request_of_arbitrate {rid : Fin sources} (h : arbitrate mask request = some rid) :
    request rid := by
  rw [arbitrate, Option.or_eq_some_iff] at h
  rcases h with h | ⟨_, h⟩
  · have hmasked := List.find?_some (p := fun rid => request rid && mask rid) h
    exact (Bool.and_eq_true_iff.mp hmasked).1
  · exact List.find?_some h

theorem arbitrate_eq_none : arbitrate mask request = none ↔ ∀ rid, request rid = false := by
  rw [arbitrate, Option.or_eq_none_iff, priorityEncoder_eq_none, priorityEncoder_eq_none]
  refine and_iff_right_of_imp fun h rid => ?_
  rw [h rid, Bool.false_and]

/-! ## The counters -/

theorem toNat_countNext {count : BitVec 8} {inc dec : Bool}
    (hinc : inc → count.toNat + 1 < 2 ^ 8) (hdec : dec → 0 < count.toNat) :
    (countNext count inc dec).toNat + dec.toNat = count.toNat + inc.toNat := by
  cases inc <;> cases dec
  · rfl
  · have hpos := hdec rfl
    change (2 ^ 8 - 1 + count.toNat) % 2 ^ 8 + 1 = count.toNat
    omega
  · have hbound := hinc rfl
    change (count + 1).toNat = count.toNat + 1
    rw [BitVec.toNat_add]
    exact Nat.mod_eq_of_lt hbound
  · rfl

/-- A source with a grant has an event that waits. -/
def Justified : Prop :=
  ∀ rid, s.grant = some rid → 0 < (s.count rid).toNat

/-- The events that wait for a token. -/
def pending : Nat := ∑ rid, (s.count rid).toNat

/-- Twice the events that wait; a grant is half of what is left to do for one. -/
def rank : Nat := 2 * s.pending - s.grant.isSome.toNat

section Step

variable {s : CtrlSelector sources} {inc : Fin sources → Bool} {ready : Bool}

section

variable (h : s.Justified)
include h

theorem Justified.pos_of_token {rid : Fin sources} (htoken : s.token ready = some rid) :
    0 < (s.count rid).toNat := by
  rw [token] at htoken
  split at htoken
  · exact h rid htoken
  · cases htoken

section

variable (hinc : ∀ rid, inc rid → (s.count rid).toNat + 1 < 2 ^ 8)
include hinc

theorem Justified.toNat_count_next (ready : Bool) (rid : Fin sources) :
    ((s.next inc ready).count rid).toNat + (decide (s.token ready = some rid)).toNat =
      (s.count rid).toNat + (inc rid).toNat :=
  toNat_countNext (hinc rid) fun hdec => h.pos_of_token (of_decide_eq_true hdec)

theorem Justified.next : (s.next inc ready).Justified := by
  intro rid hgrant
  have hrequest := request_of_arbitrate hgrant
  simp only [request, Bool.and_eq_true, decide_eq_true_eq] at hrequest
  obtain ⟨⟨hpos, hrdy⟩, hother⟩ := hrequest
  have hcnt := h.toNat_count_next hinc ready rid
  have htoken : s.token ready ≠ some rid := by rwa [token, if_pos hrdy]
  rw [decide_eq_false htoken, Bool.toNat_false] at hcnt
  have hpos : 0 < (s.count rid).toNat := BitVec.lt_def.mp hpos
  omega

end

/-- In a cycle without events, in which tokens can leave, the rank gets smaller. -/
theorem Justified.rank_next (hinc : ∀ rid, inc rid = false) :
    (s.next inc true).rank ≤ s.rank - 1 := by
  have hbound : ∀ rid, inc rid → (s.count rid).toNat + 1 < 2 ^ 8 := by
    intro rid hrid
    rw [hinc rid] at hrid
    cases hrid
  have hcnt := h.toNat_count_next hbound true
  simp only [hinc, Bool.toNat_false, Nat.add_zero, token, if_true] at hcnt
  have hpend : (s.next inc true).pending +
      ∑ rid, (decide (s.grant = some rid)).toNat = s.pending := by
    rw [pending, pending, ← Finset.sum_add_distrib]
    exact Finset.sum_congr rfl fun rid _ => hcnt rid
  rw [rank, rank]
  cases hgrant : s.grant with
  | some rid =>
    have hone : ∑ r, (decide (s.grant = some r)).toNat = 1 := by
      rw [Finset.sum_eq_single rid]
      · simp [hgrant]
      · intro r _ hr
        simp [hgrant, Ne.symm hr]
      · exact fun hmem => absurd (Finset.mem_univ rid) hmem
    rw [Option.isSome_some, Bool.toNat_true]
    omega
  | none =>
    rw [Option.isSome_none, Bool.toNat_false]
    rcases Nat.eq_zero_or_pos s.pending with hnone | hsome
    · omega
    · -- some source asks, and the arbiter grants one of those that ask
      obtain ⟨rid, _, hrid⟩ := Finset.sum_pos_iff.mp hsome
      have hnext : (s.next inc true).grant.isSome := by
        rw [Option.isSome_iff_ne_none]
        intro hnone
        have hrequest := arbitrate_eq_none.mp hnone rid
        have hcnt : s.count rid = 0 := by simpa [request, hgrant] using hrequest
        rw [hcnt] at hrid
        exact Nat.lt_irrefl 0 hrid
      rw [hnext, Bool.toNat_true]
      omega

end

theorem count_of_rank_zero (h : s.rank = 0) (rid : Fin sources) : (s.count rid).toNat = 0 := by
  have hgrant := s.grant.isSome.toNat_lt
  have hpend : s.pending = 0 := by
    rw [rank] at h
    omega
  exact Finset.sum_eq_zero_iff.mp hpend rid (Finset.mem_univ rid)

end Step

end CtrlSelector

/-- The registers of a controller with a multiplexer for each argument. -/
structure Controller (sources args : Nat) (β : Type) where
  selector : CtrlSelector sources
  mux : Fin (args + 1) → CtrlMux sources β

namespace Controller

variable {sources args : Nat} {β : Type}

/-- The inputs of the multiplexers. -/
abbrev Inputs (sources args : Nat) (β : Type) := Fin (args + 1) → CtrlMux.Inputs sources β

variable (last : Fin (args + 1) → β → Bool) (s : Controller sources args β)
  (i : Inputs sources args β)

/-- A beat of the first argument comes in. -/
def inc (rid : Fin sources) : Bool := ((i 0).port rid).pushed.isSome

/-- `replicate_selector_tready`. -/
def ready : Bool := decide (∀ arg, (i arg).replicaReady)

def token : Option (Fin sources) :=
  s.selector.token (ready i)

structure Outputs (sources args : Nat) (β : Type) where
  token : Option (Fin sources)
  val : Fin (args + 1) → Option β

def output : Outputs sources args β where
  token := s.token i
  val arg := (s.mux arg).output (i arg)

def next : Controller sources args β where
  selector := s.selector.next (inc i) (ready i)
  mux arg := (s.mux arg).next (last arg) (i arg) (s.token i)

/-- A controller whose frames end as `last` says. -/
def controller (sources args : Nat) (first : Fin sources) (last : Fin (args + 1) → β → Bool) :
    Circuit (Controller sources args β) (Inputs sources args β) (Outputs sources args β) where
  init := ⟨⟨fun _ => 0, none, fun _ => false⟩, fun _ => CtrlMux.init first⟩
  output := output
  next := next last

/-! ## What a controller is for -/

abbrev History (sources args : Nat) (β : Type) :=
  List (Inputs sources args β × Outputs sources args β)

def accepted (arg : Fin (args + 1)) (rid : Fin sources) (i : Inputs sources args β)
    (_ : Outputs sources args β) : Option β :=
  ((i arg).port rid).pushed

def sent (arg : Fin (args + 1)) (i : Inputs sources args β) (o : Outputs sources args β) :
    Option β :=
  if (i arg).ready then o.val arg else none

variable (h : History sources args β)

def tokens : List (Fin sources) :=
  transfers (fun _ o => o.token) h

/-- The events of a source that have arrived: the frames of their first arguments. -/
def events (rid : Fin sources) : Nat :=
  (frames (last 0) (transfers (accepted 0 rid) h)).length

/-- A cycle in which no first argument comes in and the replicas of the selector are ready. -/
def Quiet : Prop := (∀ rid, inc i rid = false) ∧ ready i

/-- No source gets more tokens than events have arrived from it. -/
def AtMostOnce : Prop :=
  ∀ rid, (tokens h).count rid ≤ events last h rid

/-- Each event has got its token. -/
def Once : Prop :=
  ∀ rid, (tokens h).count rid = events last h rid

/-- All multiplexers forward the frames of the same sources in the same order. -/
def Together : Prop :=
  ∀ arg, CtrlMux.Forwards (last arg) (tokens h)
    (fun rid => transfers (accepted arg rid) h) (transfers (sent arg) h)

/-- First arguments have one beat, and less than 256 events of a source wait. -/
structure Counted : Prop where
  single : ∀ rid, ∀ b ∈ ((i 0).port rid).pushed, last 0 b
  bounded : ∀ rid, inc i rid → (s.selector.count rid).toNat + 1 < 2 ^ 8

/-! ## Runs -/

section Run

variable {last : Fin (args + 1) → β → Bool} {h : History sources args β}
  {s : Controller sources args β} {i : Inputs sources args β}

/-- The counters and the multiplexers follow what went through the controller. -/
structure Inv (last : Fin (args + 1) → β → Bool) (h : History sources args β)
    (s : Controller sources args β) : Prop where
  justified : s.selector.Justified
  count : ∀ rid, (s.selector.count rid).toNat + (tokens h).count rid =
    (transfers (accepted 0 rid) h).length
  single : ∀ rid, ∀ b ∈ transfers (accepted 0 rid) h, last 0 b
  mux : ∀ arg, ∃ taken fs cur, CtrlMux.Follows (last arg) taken fs cur (tokens h)
    (fun rid => transfers (accepted arg rid) h) (transfers (sent arg) h)
    (s.mux arg)

theorem tokens_concat : tokens (h ++ [(i, output s i)]) = tokens h ++ (s.token i).toList :=
  transfers_concat _ _ _ _

theorem count_toList (token : Option (Fin sources)) (rid : Fin sources) :
    token.toList.count rid = (decide (token = some rid)).toNat := by
  cases token with
  | none => rfl
  | some t => by_cases ht : t = rid <;> simp [ht]

theorem sent_output (arg : Fin (args + 1)) :
    sent arg i (output s i) = Fifo.popped (i arg).shows (i arg).ready (s.mux arg).out := rfl

theorem inv_step (hinv : Inv last h s) (hok : Counted last s i) :
    Inv last (h ++ [(i, output s i)]) (next last s i) where
  justified := hinv.justified.next hok.bounded
  count rid := by
    have hcnt := hinv.justified.toNat_count_next hok.bounded (ready i) rid
    have hold := hinv.count rid
    have hpushed : (((i 0).port rid).pushed.toList).length = (inc i rid).toNat := by
      rw [inc]
      cases ((i 0).port rid).pushed <;> rfl
    rw [tokens_concat, List.count_append, count_toList, transfers_concat,
      List.length_append, accepted, hpushed]
    change ((s.selector.next (inc i) (ready i)).count rid).toNat + _ = _
    rw [token]
    omega
  single rid := forall_transfers_concat.mpr ⟨hinv.single rid, hok.single rid⟩
  mux arg := by
    obtain ⟨taken, fs, cur, hfol⟩ := hinv.mux arg
    simp only [tokens_concat, transfers_concat, sent_output]
    exact hfol.step (i arg) (s.token i)

theorem Inv.events_eq (hinv : Inv last h s) (rid : Fin sources) :
    events last h rid = (s.selector.count rid).toNat + (tokens h).count rid := by
  rw [events, frames_of_all_last (hinv.single rid), List.length_map, hinv.count]

theorem counted_of_quiet (hquiet : Quiet i) : Counted last s i where
  single rid b hb := by
    have hinc := hquiet.1 rid
    rw [inc, Option.isSome_eq_false_iff, Option.isNone_iff_eq_none] at hinc
    rw [hinc] at hb
    cases hb
  bounded rid hinc := by
    rw [hquiet.1 rid] at hinc
    cases hinc

variable {first : Fin sources}

theorem inv_run {inputs : List (Inputs sources args β)}
    (hok : (controller sources args first last).Along (Counted last) inputs) :
    Inv last ((controller sources args first last).trace inputs)
      ((controller sources args first last).run inputs) := by
  refine Circuit.invariant (P := Inv last) ?_ (fun _ _ _ hinv hok => inv_step hinv hok) hok
  exact ⟨nofun, fun _ => rfl, fun _ => nofun,
    fun arg => ⟨[], [], [], CtrlMux.follows_init (last arg) first⟩⟩

/-- Quiet cycles work off the events that wait. -/
theorem quiet_run {inputs rest : List (Inputs sources args β)}
    (hok : (controller sources args first last).Along (Counted last) inputs)
    (hrest : ∀ i ∈ rest, Quiet i) :
    (controller sources args first last).Along (Counted last) (inputs ++ rest) ∧
      ((controller sources args first last).run (inputs ++ rest)).selector.rank ≤
        ((controller sources args first last).run inputs).selector.rank - rest.length := by
  refine rank_append (fun s : Controller sources args β => s.selector.rank)
    (fun is i halong hquiet => ?_) hok hrest
  refine ⟨along_concat.mpr ⟨halong, counted_of_quiet hquiet⟩, ?_⟩
  change (CtrlSelector.next _ (inc i) (ready i)).rank ≤ _
  rw [hquiet.2]
  exact (inv_run halong).justified.rank_next hquiet.1

end Run

/-- In every run in which first arguments have one beat and the counters do not overflow, no
source gets too many tokens, each event gets its token as soon as enough tokens can leave, and
all arguments are forwarded in the same order. -/
theorem controller_forwards (sources args : Nat) (first : Fin sources)
    (last : Fin (args + 1) → β → Bool) (inputs : List (Inputs sources args β))
    (hok : (controller sources args first last).Along (Counted last) inputs) :
    let c := controller sources args first last
    AtMostOnce last (c.trace inputs) ∧ Together last (c.trace inputs) ∧
      ∃ n, ∀ rest : List (Inputs sources args β), (∀ i ∈ rest, Quiet i) → n ≤ rest.length →
        Once last (c.trace (inputs ++ rest)) := by
  intro c
  have hinv := inv_run hok
  refine ⟨?_, ?_, ?_⟩
  · intro rid
    rw [hinv.events_eq]
    exact Nat.le_add_left _ _
  · intro arg
    obtain ⟨taken, fs, cur, hfol⟩ := hinv.mux arg
    exact hfol.forwards
  · refine ⟨(c.run inputs).selector.rank, fun rest hrest hlen rid => ?_⟩
    obtain ⟨halong, hrank⟩ := quiet_run hok hrest
    have hzero : (c.run (inputs ++ rest)).selector.rank = 0 := by
      have hle : (c.run (inputs ++ rest)).selector.rank ≤
        (c.run inputs).selector.rank - rest.length := hrank
      omega
    rw [(inv_run halong).events_eq, CtrlSelector.count_of_rank_zero hzero, Nat.zero_add]

/-- One event of the second source, whose arguments have one beat, arrives. -/
theorem controller_forwards_event : let last : Fin 2 → Beat 8 1 → Bool := fun _ => Beat.tlast
    let i : Inputs 2 1 (Beat 8 1) := fun _ => ⟨fun rid =>
      ⟨if rid = 1 then some ⟨7, 1, true⟩ else none, true, true⟩, true, true, true, true, true⟩
    let j : Inputs 2 1 (Beat 8 1) := fun _ => ⟨fun _ => ⟨none, true, true⟩, true, true, true, true,
      true⟩
    let c := controller 2 1 0 last
    tokens (c.trace [i, j, j]) = [1] ∧ AtMostOnce last (c.trace [i]) ∧ Together last (c.trace [i]) ∧
      ∃ n, ∀ rest : List (Inputs 2 1 (Beat 8 1)), (∀ i ∈ rest, Quiet i) → n ≤ rest.length →
        Once last (c.trace ([i] ++ rest)) := by
  intro last i j c
  have hok : c.Along (Counted last) ([] ++ [i]) := by
    rw [along_concat]
    exact ⟨along_nil _, by constructor <;> decide⟩
  exact ⟨rfl, controller_forwards 2 1 0 last [i] hok⟩

/-- An event whose first argument has two beats causes two tokens. -/
theorem controller_two_tokens : let last : Fin 2 → Beat 8 1 → Bool := fun _ => Beat.tlast
    let i : Bool → Inputs 2 1 (Beat 8 1) := fun tlast _ => ⟨fun rid =>
      ⟨if rid = 1 then some ⟨7, 1, tlast⟩ else none, true, true⟩, true, true, true, true, true⟩
    let j : Inputs 2 1 (Beat 8 1) := fun _ => ⟨fun _ => ⟨none, true, true⟩, true, true, true, true,
      true⟩
    let h := (controller 2 1 0 last).trace [i false, i true, j, j, j]
    events last h 1 = 1 ∧ tokens h = [1, 1] ∧ ¬ AtMostOnce last h := by
  unfold AtMostOnce
  decide +kernel

end Controller

end Alkali.Fpga
