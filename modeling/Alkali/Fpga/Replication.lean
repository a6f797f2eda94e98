import Alkali.Fpga.Extract
import Mathlib.Order.Lattice.Nat

/-!
# The module `axis_replication`

A stream that several instances read goes into one queue for each of them. A beat is accepted
when all queues accept it. The line that would drive `m_axis_out_tkeep` is commented out, so
this output keeps the value that it has from the start.
-/

namespace Alkali.Fpga.Replication

open Synchronous List Circuit

variable {n w k : Nat}

/-- `s_axis_in`, and what the queues of the outputs do in the cycle. -/
structure Inputs (n w k : Nat) where
  axis : Option (Beat w k)
  out : Fin n → Extract.Sink

variable (ifStream : Bool) (i : Inputs n w k)

/-- `s_axis_in_tready`. -/
def ready : Bool := (List.finRange n).all fun rid => (i.out rid).accepts

/-- `fifo_axis_in`. -/
def fifoIn : Option (Beat w k) :=
  if ready i then i.axis.map (Beat.wrapped ifStream) else none

variable (keep : Fin n → BitVec k) (fifo : Fin n → List (Beat w k))

/-- `m_axis_out`. -/
def output (i : Inputs n w k) (rid : Fin n) : Option (Beat w k) :=
  (Fifo.front (i.out rid).shows (fifo rid)).map fun b => { b with tkeep := keep rid }

def next (i : Inputs n w k) : Fin n → List (Beat w k) :=
  fun rid => Fifo.next (i.out rid).shows (i.out rid).ready (fifo rid) (fifoIn ifStream i)

/-- The module with `n` outputs, where `keep` is what the register `m_axis_out_tkeep` starts
with. -/
def replication (n w k : Nat) (keep : Fin n → BitVec k) :
    Circuit (Fin n → List (Beat w k)) (Inputs n w k) (Fin n → Option (Beat w k)) where
  init _ := []
  output := output keep
  next := next ifStream

/-! ## What the module is for -/

/-- The beat that is accepted on the input. -/
def accepted (_ : Fin n → Option (Beat w k)) : Option (Beat w k) :=
  if ready i then i.axis else none

/-- The beat that leaves on an output. -/
def sent (rid : Fin n) (i : Inputs n w k) (o : Fin n → Option (Beat w k)) : Option (Beat w k) :=
  if (i.out rid).ready then o rid else none

section Spec

variable (ifStream : Bool) (h : List (Inputs n w k × (Fin n → Option (Beat w k))))

/-- What an output has sent, as its receiver sees it. -/
def seenAt (rid : Fin n) : List (BitVec w × Option (BitVec k × Bool)) :=
  (transfers (sent rid) h).map (Beat.seen ifStream)

/-- What the input has accepted. -/
def seenIn : List (BitVec w × Option (BitVec k × Bool)) :=
  (transfers accepted h).map (Beat.seen ifStream)

/-- Each output has sent the first beats of the input. -/
def InOrder : Prop := ∀ rid, seenAt ifStream h rid <+: seenIn ifStream h

/-- Each output has sent the beats of the input. -/
def Delivered : Prop := ∀ rid, seenAt ifStream h rid = seenIn ifStream h

end Spec

/-- The beats of a stream have the `tkeep` that the outputs have anyway. -/
def KeepsAgree (bs : List (Beat w k)) : Prop :=
  ifStream → ∀ b ∈ bs, ∀ rid, b.tkeep = keep rid

/-- No beat comes in, and the outputs are read. -/
def Quiet : Prop :=
  i.axis = none ∧ ∀ rid, (i.out rid).shows ∧ (i.out rid).ready

/-! ## Runs -/

section Run

variable {ifStream : Bool} {keep : Fin n → BitVec k}
  {h : List (Inputs n w k × (Fin n → Option (Beat w k)))} {fifo : Fin n → List (Beat w k)}
  {i : Inputs n w k}

/-- What a beat looks like at an output. -/
def atOutput (ifStream : Bool) (keep : BitVec k) (b : Beat w k) : Beat w k :=
  { b.wrapped ifStream with tkeep := keep }

/-- The beats that an output has sent and those in its queue are those of the input. -/
def Inv (ifStream : Bool) (keep : Fin n → BitVec k)
    (h : List (Inputs n w k × (Fin n → Option (Beat w k)))) (fifo : Fin n → List (Beat w k)) :
    Prop :=
  ∀ rid, (transfers accepted h).map (atOutput ifStream (keep rid)) =
    transfers (sent rid) h ++ (fifo rid).map fun b => { b with tkeep := keep rid }

theorem fifoIn_eq (ifStream : Bool) (i : Inputs n w k) (o : Fin n → Option (Beat w k)) :
    fifoIn ifStream i = (accepted i o).map (Beat.wrapped ifStream) := by
  rw [fifoIn, accepted]
  cases ready i <;> rfl

theorem sent_eq (keep : Fin n → BitVec k) (fifo : Fin n → List (Beat w k)) (i : Inputs n w k)
    (rid : Fin n) : sent rid i (output keep fifo i) =
      (Fifo.popped (i.out rid).shows (i.out rid).ready (fifo rid)).map
        fun b => { b with tkeep := keep rid } := by
  rw [sent, output, Fifo.popped]
  cases (i.out rid).ready <;> rfl

theorem inv_step (hinv : Inv ifStream keep h fifo) :
    Inv ifStream keep (h ++ [(i, output keep fifo i)]) (next ifStream fifo i) := by
  intro rid
  have hq := congrArg (List.map fun b : Beat w k => { b with tkeep := keep rid })
    (Fifo.popped_append_next (i.out rid).shows (i.out rid).ready (fifo rid) (fifoIn ifStream i))
  rw [map_append, map_append, ← Option.toList_map, ← sent_eq] at hq
  have hin : (fifoIn ifStream i).toList.map (fun b => { b with tkeep := keep rid }) =
      (accepted i (output keep fifo i)).toList.map (atOutput ifStream (keep rid)) := by
    rw [fifoIn_eq ifStream i (output keep fifo i), Option.toList_map, map_map]
    rfl
  rw [transfers_concat, transfers_concat, map_append, hinv rid,
    append_assoc, append_assoc, ← hin, ← hq]
  rfl

theorem inv_run (inputs : List (Inputs n w k)) :
    Inv ifStream keep ((replication ifStream n w k keep).trace inputs)
      ((replication ifStream n w k keep).run inputs) :=
  Circuit.invariant (P := Inv ifStream keep) (fun _ => rfl) (fun _ _ _ hinv _ => inv_step hinv)
    (along_true inputs)

theorem seen_atOutput_iff (ifStream : Bool) (keep : BitVec k) (b : Beat w k) :
    (atOutput ifStream keep b).seen ifStream = b.seen ifStream ↔ (ifStream → b.tkeep = keep) := by
  cases ifStream with
  | false => simp [atOutput, Beat.seen, Beat.wrapped]
  | true => simp [atOutput, Beat.seen, Beat.wrapped, eq_comm]

/-- All outputs send beats that look as on the input if and only if their `tkeep` agrees. -/
theorem keepsAgree_iff (bs : List (Beat w k)) : KeepsAgree ifStream keep bs ↔
    ∀ rid, bs.map (fun b => (atOutput ifStream (keep rid) b).seen ifStream) =
      bs.map (Beat.seen ifStream) := by
  simp only [map_inj_left, seen_atOutput_iff]
  exact ⟨fun h rid b hb hstream => h hstream b hb rid, fun h hstream b hb rid => h rid b hb hstream⟩

theorem Inv.seenIn_eq (hinv : Inv ifStream keep h fifo) (rid : Fin n) :
    (transfers accepted h).map (fun b => (atOutput ifStream (keep rid) b).seen ifStream) =
      seenAt ifStream h rid ++
        (fifo rid).map fun b => ({ b with tkeep := keep rid } : Beat w k).seen ifStream := by
  have hseen := congrArg (List.map (Beat.seen ifStream)) (hinv rid)
  rwa [map_append, map_map, map_map] at hseen

/-- The longest queue. -/
def rank (fifo : Fin n → List (Beat w k)) : Nat := Finset.univ.sup fun rid => (fifo rid).length

theorem fifoIn_of_quiet (hquiet : Quiet i) : fifoIn ifStream i = none := by
  rw [fifoIn, hquiet.1]
  exact ite_self _

theorem rank_next (hquiet : Quiet i) : rank (next ifStream fifo i) ≤ rank fifo - 1 := by
  refine Finset.sup_le fun rid _ => ?_
  obtain ⟨hshows, hrdy⟩ := hquiet.2 rid
  have hle : (fifo rid).length ≤ rank fifo :=
    Finset.le_sup (f := fun rid => (fifo rid).length) (Finset.mem_univ rid)
  rw [next, hshows, hrdy, Fifo.length_next_of_ready, fifoIn_of_quiet hquiet]
  exact Nat.sub_le_sub_right hle 1

theorem eq_nil_of_rank_zero (h : rank fifo = 0) (rid : Fin n) : fifo rid = [] := by
  have hle : (fifo rid).length ≤ rank fifo :=
    Finset.le_sup (f := fun rid => (fifo rid).length) (Finset.mem_univ rid)
  exact eq_nil_of_length_eq_zero (Nat.eq_zero_of_le_zero (h ▸ hle))

end Run

/-- If the `tkeep` of the beats agrees, each output sends the beats of the input in order. As
soon as the outputs are read, each of them has sent all beats if and only if it agrees. -/
theorem replication_delivers (ifStream : Bool) (keep : Fin n → BitVec k)
    (inputs : List (Inputs n w k)) :
    let c := replication ifStream n w k keep
    let beats := transfers accepted (c.trace inputs)
    (KeepsAgree ifStream keep beats → InOrder ifStream (c.trace inputs)) ∧
      ∃ m, ∀ rest : List (Inputs n w k), (∀ i ∈ rest, Quiet i) → m ≤ rest.length →
        (Delivered ifStream (c.trace (inputs ++ rest)) ↔ KeepsAgree ifStream keep beats) := by
  intro c beats
  refine ⟨fun hkeep rid => ?_, rank (c.run inputs), fun rest hrest hlen => ?_⟩
  · rw [seenIn, ← (keepsAgree_iff _).mp hkeep rid, (inv_run inputs).seenIn_eq rid]
    exact prefix_append _ _
  · have hstep : ∀ is i, transfers accepted (c.trace is) = beats → Quiet i →
        transfers accepted (c.trace (is ++ [i])) = beats ∧
          rank (c.next (c.run is) i) ≤ rank (c.run is) - 1 := by
      intro is i hsame hquiet
      refine ⟨?_, rank_next hquiet⟩
      rw [trace_concat, transfers_concat, hsame, accepted, hquiet.1, ite_self]
      exact append_nil _
    obtain ⟨hsame, hrank⟩ := rank_append rank hstep rfl hrest
    have hzero : rank (c.run (inputs ++ rest)) = 0 :=
      Nat.eq_zero_of_le_zero (hrank.trans (Nat.sub_eq_zero_of_le hlen).le)
    rw [← hsame, keepsAgree_iff]
    refine forall_congr' fun rid => ?_
    rw [(inv_run (inputs ++ rest)).seenIn_eq rid, eq_nil_of_rank_zero hzero rid, map_nil,
      append_nil]
    rfl

/-- A stream of one beat of one byte goes to two outputs. Both show no valid byte. -/
theorem replication_loses_tkeep :
    let cycle : Option (Beat 8 1) → Inputs 2 8 1 := fun b => ⟨b, fun _ => ⟨true, true, true⟩⟩
    let h := (replication true 2 8 1 fun _ => 0).trace [cycle (some ⟨7, 1, true⟩), cycle none]
    seenIn true h = [(7, some (1, true))] ∧ (∀ rid, seenAt true h rid = [(7, some (0, true))]) ∧
      ¬ InOrder true h := by
  intro cycle h
  have hin : seenIn true h = [(7, some (1, true))] := by decide
  have hat : ∀ rid, seenAt true h rid = [(7, some (0, true))] := by decide
  refine ⟨hin, hat, fun hord => ?_⟩
  have hpre := hord 0
  rw [hin, hat] at hpre
  revert hpre
  decide

end Alkali.Fpga.Replication
