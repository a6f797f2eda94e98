import Alkali.Library.Synchronous
import Mathlib.Data.BitVec

/-!
# The module `guard`

`guard` lets the frames of a stream pass whose condition is true. It takes a condition
with the first beat of a frame and keeps it until the last one.
-/

namespace Alkali.Fpga

open Synchronous List Circuit

/-- A beat of a stream. A valid signal is `some`, others are `none`. -/
structure Beat (w k : Nat) where
  tdata : BitVec w
  tkeep : BitVec k
  tlast : Bool
  deriving DecidableEq

open Beat

variable {w k : Nat} (ifStream : Bool) (b : Beat w k)

/-- `wrapped_s_axis`: a value that is no stream is a frame of one full beat. -/
def Beat.wrapped : Beat w k :=
  if ifStream then b else { b with tkeep := .allOnes k, tlast := true }

/-- A beat ends a frame. -/
def Beat.endsFrame : Bool := !ifStream || b.tlast

/-- What a receiver sees of a beat: a value that is no stream is only data. -/
def Beat.seen : BitVec w × Option (BitVec k × Bool) :=
  (b.tdata, if ifStream then some (b.tkeep, b.tlast) else none)

theorem Beat.tlast_wrapped : (b.wrapped ifStream).tlast = b.endsFrame ifStream := by
  cases ifStream <;> rfl

theorem Beat.seen_wrapped : (b.wrapped ifStream).seen ifStream = b.seen ifStream := by
  cases ifStream <;> rfl

namespace Guard

inductive State
  | filterStart | filtering
  deriving DecidableEq, Repr

structure Regs where
  state : State
  condReg : Bool
  deriving DecidableEq, Repr

/-- `s_guard_axis`, `s_guard_cond` and the ready signal of `m_guard_axis`. -/
structure Inputs (w k : Nat) where
  axis : Option (Beat w k)
  cond : Option Bool
  ready : Bool

structure Outputs (w k : Nat) where
  axisReady : Bool
  condReady : Bool
  out : Option (Beat w k)

variable (ifStream : Bool)

def output (s : Regs) (i : Inputs w k) : Outputs w k :=
  if s.state = .filterStart ∧ i.cond.isSome ∧ i.axis.isSome ∧ i.ready then
    ⟨true, true, if i.cond = some true then i.axis.map (wrapped ifStream) else none⟩
  else if s.state = .filtering ∧ i.axis.isSome ∧ i.ready then
    ⟨true, false, if s.condReg then i.axis.map (wrapped ifStream) else none⟩
  else ⟨false, false, none⟩

variable (i : Inputs w k) (o : Outputs w k)

/-- The beat that is transferred in. -/
def accepted : Option (Beat w k) :=
  if o.axisReady then i.axis else none

def acceptedCond : Option Bool :=
  if o.condReady then i.cond else none

def sent : Option (Beat w k) :=
  if i.ready then o.out else none

def next (s : Regs) (i : Inputs w k) : Regs :=
  let o := output ifStream s i
  match s.state, acceptedCond i o, accepted i o with
  | .filterStart, some cond, some b =>
    if (b.wrapped ifStream).tlast then s else ⟨.filtering, cond⟩
  | .filtering, _, some b =>
    if (b.wrapped ifStream).tlast then { s with state := .filterStart } else s
  | _, _, _ => s

/-- The module after a reset, which does not load `cond_reg`. -/
def guard (w k : Nat) (cond : Bool) : Circuit Regs (Inputs w k) (Outputs w k) where
  init := ⟨.filterStart, cond⟩
  output := output ifStream
  next := next ifStream

/-! ## One cycle -/

variable {ifStream}

/-- A cycle starts a frame, goes on with one, or transfers nothing. -/
theorem step_cases (ifStream : Bool) (s : Regs) (i : Inputs w k) :
    (∃ b cond, s.state = .filterStart ∧ accepted i (output ifStream s i) = some b ∧
      acceptedCond i (output ifStream s i) = some cond ∧
      sent i (output ifStream s i) = (if cond then some (b.wrapped ifStream) else none) ∧
      next ifStream s i = if b.endsFrame ifStream then s else ⟨.filtering, cond⟩) ∨
    (∃ b, s.state = .filtering ∧ accepted i (output ifStream s i) = some b ∧
      acceptedCond i (output ifStream s i) = none ∧
      sent i (output ifStream s i) = (if s.condReg then some (b.wrapped ifStream) else none) ∧
      next ifStream s i = if b.endsFrame ifStream then { s with state := .filterStart } else s) ∨
    accepted i (output ifStream s i) = none ∧ acceptedCond i (output ifStream s i) = none ∧
      sent i (output ifStream s i) = none ∧ next ifStream s i = s := by
  obtain ⟨state, condReg⟩ := s
  obtain ⟨axis, cond, ready⟩ := i
  cases axis <;> cases cond <;> cases ready <;> cases state <;>
    simp [next, accepted, acceptedCond, sent, output, tlast_wrapped]

/-- A beat is taken as soon as it is valid, the receiver is ready, and there is a condition
for a new frame. -/
theorem axisReady_iff (s : Regs) (i : Inputs w k) : (output ifStream s i).axisReady ↔
    i.axis.isSome ∧ i.ready ∧ (s.state = .filterStart → i.cond.isSome) := by
  obtain ⟨state, condReg⟩ := s
  obtain ⟨axis, cond, ready⟩ := i
  cases axis <;> cases cond <;> cases ready <;> cases state <;> simp [output]

/-! ## Runs -/

/-- The beats of the frames whose condition is true. -/
def passed {α : Type} (fs : List (List α)) (conds : List Bool) : List α :=
  (fs.zip conds).flatMap fun p => if p.2 then p.1 else []

theorem passed_concat {α : Type} {fs : List (List α)} {conds : List Bool}
    (h : conds.length = fs.length) (f : List α) (cond : Bool) :
    passed (fs ++ [f]) (conds ++ [cond]) = passed fs conds ++ if cond then f else [] := by
  rw [passed, zip_append h.symm, flatMap_append, passed]
  simp

/-- The registers and the transfers agree. -/
structure Inv (ifStream : Bool) (h : List (Inputs w k × Outputs w k)) (s : Regs) : Prop where
  state : s.state = .filtering ↔ unfinished (endsFrame ifStream) (transfers accepted h)
  cond : s.state = .filtering → ∃ conds, transfers acceptedCond h = conds ++ [s.condReg]
  length : (transfers acceptedCond h).length =
    (frames (endsFrame ifStream) (transfers accepted h)).length
  sent : transfers sent h = (passed (frames (endsFrame ifStream) (transfers accepted h))
      (transfers acceptedCond h)).map (wrapped ifStream)

theorem inv_step {h : List (Inputs w k × Outputs w k)} {s : Regs} (hinv : Inv ifStream h s)
    (i : Inputs w k) :
    Inv ifStream (h ++ [(i, output ifStream s i)]) (next ifStream s i) := by
  rcases step_cases ifStream s i with
    ⟨b, cond, hst, hb, hcond, hsent, hnext⟩ | ⟨b, hst, hb, hcond, hsent, hnext⟩ |
    ⟨hb, hcond, hsent, hnext⟩
  · -- the beat starts a frame
    have hfin : unfinished (endsFrame ifStream) (transfers accepted h) = false := by
      rw [← Bool.not_eq_true, ← hinv.state, hst]
      decide
    have hframes := frames_concat_of_finished hfin b
    refine ⟨?_, ?_, ?_, ?_⟩
    · rw [transfers_concat, hb, Option.toList_some, unfinished_concat, hnext]
      cases hlast : b.endsFrame ifStream <;> simp [hst]
    · intro hfiltering
      refine ⟨transfers acceptedCond h, ?_⟩
      rw [transfers_concat, hcond, hnext]
      cases hlast : b.endsFrame ifStream
      · rfl
      · rw [hnext, hlast, if_pos rfl, hst] at hfiltering
        cases hfiltering
    · rw [transfers_concat, transfers_concat, hcond, hb]
      simp [hframes, hinv.length]
    · rw [transfers_concat, transfers_concat, transfers_concat, hcond, hb,
        hsent, Option.toList_some, Option.toList_some, hframes, passed_concat hinv.length,
        map_append, hinv.sent]
      cases cond <;> rfl
  · -- the beat belongs to the frame of the last condition
    have hopen := hinv.state.mp hst
    obtain ⟨conds, hconds⟩ := hinv.cond hst
    obtain ⟨fs, f, hfs, hfs'⟩ := frames_concat_of_unfinished hopen b
    have hlen := hinv.length
    rw [hconds, hfs, length_append, length_append] at hlen
    have hlen : conds.length = fs.length := Nat.add_right_cancel hlen
    refine ⟨?_, ?_, ?_, ?_⟩
    · rw [transfers_concat, hb, Option.toList_some, unfinished_concat, hnext]
      cases hlast : b.endsFrame ifStream <;> simp [hst]
    · intro _
      rw [transfers_concat, hcond, hconds, hnext]
      cases hlast : b.endsFrame ifStream <;> simp
    · rw [transfers_concat, transfers_concat, hcond, hb, Option.toList_some, hfs', hconds]
      simp [hlen]
    · rw [transfers_concat, transfers_concat, transfers_concat, hcond, hb,
        hsent, hinv.sent, hconds, hfs, Option.toList_some, Option.toList_none, append_nil,
        hfs', passed_concat hlen, passed_concat hlen]
      cases s.condReg <;> simp
  · rw [hnext]
    refine ⟨?_, ?_, ?_, ?_⟩ <;>
      simp only [transfers_concat, hb, hcond, hsent, Option.toList_none, append_nil]
    exacts [hinv.state, hinv.cond, hinv.length, hinv.sent]

theorem inv_run (ifStream cond : Bool) (inputs : List (Inputs w k)) :
    Inv ifStream ((guard ifStream w k cond).trace inputs) ((guard ifStream w k cond).run inputs) :=
  Circuit.invariant (P := Inv ifStream)
    ⟨by simp [guard, transfers, unfinished], by simp [guard], rfl, rfl⟩
    (fun _ _ i hinv _ => inv_step hinv i) (along_true inputs)

/-- The beats that leave are those of the frames whose condition is true, there is one
condition for each frame, and no beat waits without need. -/
theorem guard_passes (ifStream : Bool) (w k : Nat) (cond : Bool) (inputs : List (Inputs w k)) :
    let h := (guard ifStream w k cond).trace inputs
    let beats := transfers accepted h
    let conds := transfers acceptedCond h
    conds.length = (frames (endsFrame ifStream) beats).length ∧
      (transfers sent h).map (seen ifStream) =
        (passed (frames (endsFrame ifStream) beats) conds).map (seen ifStream) ∧
      ∀ i : Inputs w k, (output ifStream ((guard ifStream w k cond).run inputs) i).axisReady ↔
        i.axis.isSome ∧ i.ready ∧
          (unfinished (endsFrame ifStream) beats = false → i.cond.isSome) := by
  intro h beats conds
  have hinv := inv_run ifStream cond inputs
  refine ⟨hinv.length, ?_, ?_⟩
  · rw [hinv.sent, map_map]
    exact map_congr_left fun b _ => b.seen_wrapped ifStream
  · intro i
    rw [axisReady_iff, ← Bool.not_eq_true, ← hinv.state]
    cases ((guard ifStream w k cond).run inputs).state <;> simp

end Guard

end Alkali.Fpga
