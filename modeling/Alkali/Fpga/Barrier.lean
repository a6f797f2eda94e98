import Alkali.Fpga.Guard
import Mathlib.Order.Lattice.Nat

/-!
# The modules `ctrl_barrier` and `barrier_queue`

A controller with one source and one destination puts a queue into each channel of its event
and counts what goes in and out of it. A queue is open while its channel has released less
than every channel has accepted. The counters of releases count down.
-/

namespace Alkali.Fpga.Barrier

open Synchronous List Circuit

variable {n : Nat} {α : Type}

/-- The queue and the two counters of each channel. -/
structure Regs (n : Nat) (α : Type) where
  fifo : Fin n → List α
  incount : Fin n → BitVec 16
  outcount : Fin n → BitVec 16

/-- The input of a channel's queue and the ready signal at its output. -/
structure Channel (α : Type) where
  port : Fifo.Port α
  ready : Bool

/-- `min_incount`. The loop runs one index too far: a comparison with what is read there is
not true. -/
def minIncount (incount : Fin n → BitVec 16) : BitVec 16 :=
  (List.range (n + 1)).foldl
    (fun m c => if h : c < n then if incount ⟨c, h⟩ < m then incount ⟨c, h⟩ else m else m)
    (if h : 0 < n then incount ⟨0, h⟩ else 0)

/-- `ctrl_barrier`. -/
def ctrlBarrier (s : Regs n α) (rid : Fin n) : Bool := s.outcount rid < minIncount s.incount

section Signals

variable (s : Regs n α) (i : Fin n → Channel α) (rid : Fin n)

/-- `m_out` of `barrier_queue`. -/
def output : Option α :=
  if ctrlBarrier s rid then Fifo.front (i rid).port.shows (s.fifo rid) else none

/-- `fifo_axis_out_tready`. -/
def fifoReady : Bool := (i rid).ready && ctrlBarrier s rid

def inc : Bool := (i rid).port.pushed.isSome

def dec : Bool := (i rid).ready && (output s i rid).isSome

end Signals

def next (s : Regs n α) (i : Fin n → Channel α) : Regs n α where
  fifo rid := Fifo.next (i rid).port.shows (fifoReady s i rid) (s.fifo rid) (i rid).port.pushed
  incount rid := if inc i rid then s.incount rid + 1 else s.incount rid
  outcount rid :=
    if inc i rid then s.outcount rid
    else if dec s i rid then s.outcount rid - 1 else s.outcount rid

/-- The channels between one source and one destination. -/
def channels (n : Nat) (α : Type) : Circuit (Regs n α) (Fin n → Channel α) (Fin n → Option α) where
  init := ⟨fun _ => [], fun _ => 0, fun _ => 0⟩
  output := output
  next := next

/-! ## What the modules are for -/

def accepted (rid : Fin n) (i : Fin n → Channel α) (_ : Fin n → Option α) : Option α :=
  (i rid).port.pushed

def released (rid : Fin n) (i : Fin n → Channel α) (o : Fin n → Option α) : Option α :=
  if (i rid).ready then o rid else none

/-- The complete events among some beats. -/
def events (last : α → Bool) (bs : List α) : Nat := bs.countP last

/-- Between two events, a channel is open if and only if it has released less events than
every channel has accepted. -/
def Synchronized (last : Fin n → α → Bool) (h : List ((Fin n → Channel α) × (Fin n → Option α)))
    (s : Regs n α) : Prop :=
  ∀ rid, unfinished (last rid) (transfers (released rid) h) = false →
    (ctrlBarrier s rid ↔ events (last rid) (transfers (released rid) h) <
      Finset.univ.inf' (Finset.univ_nonempty_iff.mpr ⟨rid⟩) fun c =>
        events (last c) (transfers (accepted c) h))

/-- Events have one beat, counters do not overflow, no channel releases an event while it
accepts one, and once an event is released there is a channel without a second one. -/
structure FirstRound (last : Fin n → α → Bool) (s : Regs n α) (i : Fin n → Channel α) : Prop where
  single : ∀ rid, ∀ b ∈ (i rid).port.pushed, last rid b
  bounded : ∀ rid, inc i rid → (s.incount rid).toNat + 1 < 2 ^ 16
  apart : ∀ rid, inc i rid → dec s i rid = false
  first : (∃ rid, s.outcount rid ≠ 0 ∨ dec s i rid) →
    ∃ rid, (s.incount rid).toNat + (inc i rid).toNat ≤ 1

/-! ## The minimum -/

theorem lt_foldl_min (incount : Fin n → BitVec 16) (x : BitVec 16) (cs : List Nat) (m : BitVec 16) :
    x < cs.foldl (fun m c => if h : c < n then
        if incount ⟨c, h⟩ < m then incount ⟨c, h⟩ else m else m) m ↔
      x < m ∧ ∀ rid : Fin n, rid.val ∈ cs → x < incount rid := by
  induction cs generalizing m with
  | nil => simp
  | cons c cs ih =>
    rw [foldl_cons, ih]
    simp only [mem_cons, or_imp, forall_and]
    rw [← and_assoc]
    refine and_congr_left fun _ => ?_
    by_cases hc : c < n
    · have hmin : (x < if incount ⟨c, hc⟩ < m then incount ⟨c, hc⟩ else m) ↔
          x < m ∧ x < incount ⟨c, hc⟩ := by
        simp only [BitVec.lt_def]
        split <;> omega
      rw [dif_pos hc, hmin]
      refine and_congr_right fun _ => ⟨?_, fun h => h ⟨c, hc⟩ rfl⟩
      rintro hx rid rfl
      exact hx
    · rw [dif_neg hc]
      refine (and_iff_left ?_).symm
      rintro rid rfl
      exact absurd rid.isLt hc

/-- The minimum is the one of the channels. -/
theorem lt_minIncount {incount : Fin n → BitVec 16} (hn : 0 < n) (x : BitVec 16) :
    x < minIncount incount ↔ ∀ rid, x < incount rid := by
  rw [minIncount, lt_foldl_min, dif_pos hn]
  constructor
  · intro h rid
    exact h.2 rid (mem_range.mpr (by omega))
  · intro h
    exact ⟨h _, fun rid _ => h rid⟩

/-! ## One cycle -/

theorem released_output (s : Regs n α) (i : Fin n → Channel α) (rid : Fin n) :
    released rid i (output s i) =
      Fifo.popped (i rid).port.shows (fifoReady s i rid) (s.fifo rid) := by
  rw [released, output, Fifo.popped, fifoReady]
  cases (i rid).ready <;> cases ctrlBarrier s rid <;> rfl

theorem dec_eq_isSome (s : Regs n α) (i : Fin n → Channel α) (rid : Fin n) :
    dec s i rid = (released rid i (output s i)).isSome := by
  rw [dec, released]
  cases (i rid).ready <;> rfl

variable {s : Regs n α} {last : Fin n → α → Bool} {i : Fin n → Channel α}
  {h : List ((Fin n → Channel α) × (Fin n → Option α))}

/-- A counter that was counted down is never small again. -/
theorem ctrlBarrier_of_down {rid : Fin n} (h : s.outcount rid = -1) :
    ctrlBarrier s rid = false := by
  rw [ctrlBarrier, decide_eq_false_iff_not, h, BitVec.lt_def]
  have hdown : (-1 : BitVec 16).toNat = 2 ^ 16 - 1 := rfl
  omega

theorem toNat_incount_next (hok : FirstRound last s i) (rid : Fin n) :
    ((next s i).incount rid).toNat = (s.incount rid).toNat + (inc i rid).toNat := by
  change (if inc i rid then s.incount rid + 1 else s.incount rid).toNat = _
  cases hinc : inc i rid with
  | false => rfl
  | true =>
    have hlt := hok.bounded rid hinc
    exact Nat.mod_eq_of_lt hlt

/-! ## Runs -/

/-- The counters and the transfers agree as long as no channel releases a second event. -/
structure Inv (last : Fin n → α → Bool) (h : List ((Fin n → Channel α) × (Fin n → Option α)))
    (s : Regs n α) : Prop where
  count : ∀ rid, (s.incount rid).toNat = (transfers (accepted rid) h).length
  single : ∀ rid, ∀ b ∈ transfers (accepted rid) h, last rid b
  queue : ∀ rid, transfers (accepted rid) h = transfers (released rid) h ++ s.fifo rid
  out : ∀ rid, s.outcount rid = 0 ∧ transfers (released rid) h = [] ∨
    s.outcount rid = -1 ∧ (transfers (released rid) h).length = 1
  first : (∃ rid, s.outcount rid ≠ 0) → ∃ rid, (s.incount rid).toNat ≤ 1

section

variable (hinv : Inv last h s)
include hinv

theorem out_step (hok : FirstRound last s i) (rid : Fin n) :
    (next s i).outcount rid = 0 ∧ transfers (released rid) (h ++ [(i, output s i)]) = [] ∨
      (next s i).outcount rid = -1 ∧
        (transfers (released rid) (h ++ [(i, output s i)])).length = 1 := by
  rw [transfers_concat, next]
  have hdec := dec_eq_isSome s i rid
  cases hreleased : released rid i (output s i) with
  | none =>
    rw [hreleased, Option.isSome_none] at hdec
    simpa [hdec] using hinv.out rid
  | some b =>
    rw [hreleased, Option.isSome_some] at hdec
    have hinc : inc i rid = false := by
      by_contra hinc
      rw [hok.apart rid (Bool.eq_true_of_not_eq_false hinc)] at hdec
      cases hdec
    -- the channel is open, so that it has released nothing yet
    rcases hinv.out rid with ⟨hzero, hnil⟩ | ⟨hdown, _⟩
    · right
      simp [hinc, hdec, hzero, hnil]
    · rw [released_output, Fifo.popped, fifoReady, ctrlBarrier_of_down hdown, Bool.and_false]
        at hreleased
      cases hreleased

theorem inv_step (hok : FirstRound last s i) : Inv last (h ++ [(i, output s i)]) (next s i) where
  count rid := by
    rw [toNat_incount_next hok, hinv.count, transfers_concat, length_append, inc, accepted]
    cases (i rid).port.pushed <;> rfl
  single rid := forall_transfers_concat.mpr ⟨hinv.single rid, hok.single rid⟩
  queue rid := by
    rw [transfers_concat, transfers_concat, released_output]
    exact Fifo.conserve (hinv.queue rid) _ _ _
  out := out_step hinv hok
  first := by
    rintro ⟨rid, hne⟩
    have hreleased : s.outcount rid ≠ 0 ∨ dec s i rid := by
      by_contra hnone
      rw [not_or, not_not, Bool.not_eq_true] at hnone
      rw [next] at hne
      simp [hnone] at hne
    obtain ⟨c, hc⟩ := hok.first ⟨rid, hreleased⟩
    exact ⟨c, (toNat_incount_next hok c).trans_le hc⟩

theorem events_accepted (c : Fin n) :
    events (last c) (transfers (accepted c) h) = (s.incount c).toNat := by
  rw [hinv.count, events, countP_eq_length]
  exact hinv.single c

theorem Inv.synchronized : Synchronized last h s := by
  intro rid _
  have hn : 0 < n := rid.pos
  rw [Finset.lt_inf'_iff]
  simp only [events_accepted hinv, Finset.mem_univ, true_imp_iff]
  rcases hinv.out rid with ⟨hzero, hnil⟩ | ⟨hdown, hone⟩
  · rw [ctrlBarrier, decide_eq_true_eq, lt_minIncount hn, hzero, hnil]
    rfl
  · have hevents : events (last rid) (transfers (released rid) h) = 1 := by
      rw [events, ← hone, countP_eq_length]
      exact fun b hb => hinv.single rid b (hinv.queue rid ▸ mem_append_left _ hb)
    rw [ctrlBarrier_of_down hdown, hevents]
    refine ⟨fun h => absurd h Bool.false_ne_true, fun hall => ?_⟩
    obtain ⟨c, hc⟩ := hinv.first ⟨rid, by rw [hdown]; decide⟩
    exact absurd (hall c) (Nat.not_lt.mpr hc)

end

/-- In every run that only goes through a first round of events, the channels are open when
they should be. -/
theorem channels_synchronized (last : Fin n → α → Bool) (inputs : List (Fin n → Channel α))
    (hok : (channels n α).Along (FirstRound last) inputs) :
    Synchronized last ((channels n α).trace inputs) ((channels n α).run inputs) := by
  refine (Circuit.invariant (P := Inv last) ?_ ?_ hok).synchronized
  · exact ⟨fun _ => rfl, fun _ => nofun, fun _ => rfl, fun _ => Or.inl ⟨rfl, rfl⟩,
      fun ⟨_, h⟩ => absurd rfl h⟩
  · exact fun _ _ _ hinv hok => inv_step hinv hok

/-- Two channels accept an event each, and the first one releases it. -/
theorem channels_synchronized_two : let b : Beat 8 1 := ⟨7, 1, true⟩
    let i₁ : Fin 2 → Channel (Beat 8 1) := fun _ => ⟨⟨some b, true, false⟩, true⟩
    let i₂ : Fin 2 → Channel (Beat 8 1) := fun rid => ⟨⟨none, true, true⟩, rid == 0⟩
    let h := (channels 2 (Beat 8 1)).trace [i₁, i₂]
    transfers (released 0) h = [b] ∧ transfers (released 1) h = [] ∧
      Synchronized (fun _ => Beat.tlast) h ((channels 2 (Beat 8 1)).run [i₁, i₂]) := by
  intro b i₁ i₂ h
  have hok : (channels 2 (Beat 8 1)).Along (FirstRound fun _ => Beat.tlast)
      ([] ++ [i₁] ++ [i₂]) := by
    rw [along_concat, along_concat]
    exact ⟨⟨along_nil _, by constructor <;> decide⟩, by constructor <;> decide⟩
  exact ⟨rfl, rfl, channels_synchronized _ _ hok⟩

/-- A channel that has released an event stays closed when every channel has accepted a second
one, and it is open while an event of two beats is not complete. -/
theorem channels_not_synchronized : (let b : Beat 8 1 := ⟨7, 1, true⟩
      let i₁ : Fin 2 → Channel (Beat 8 1) := fun _ => ⟨⟨some b, true, false⟩, true⟩
      let i₂ : Fin 2 → Channel (Beat 8 1) := fun _ => ⟨⟨none, true, true⟩, true⟩
      let s := (channels 2 (Beat 8 1)).run [i₁, i₂, i₁]
      ctrlBarrier s 0 = false ∧
        ¬ Synchronized (fun _ => Beat.tlast) ((channels 2 (Beat 8 1)).trace [i₁, i₂, i₁]) s) ∧
    (let i : Fin 2 → Channel (Beat 8 1) := fun rid => ⟨⟨some ⟨7, 1, rid == 1⟩, true, false⟩, true⟩
      let s := (channels 2 (Beat 8 1)).run [i]
      ctrlBarrier s 0 ∧
        ¬ Synchronized (fun _ => Beat.tlast) ((channels 2 (Beat 8 1)).trace [i]) s) := by
  unfold Synchronized
  decide +kernel

end Alkali.Fpga.Barrier
