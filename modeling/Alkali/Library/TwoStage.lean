import Mathlib.Data.List.Basic

/-!
# Two stages with a queue in between

The front stage consumes inputs and sends one message each, the back stage
consumes the messages in order. Both work on one shared state. When a front
step and a back step do not interfere, every interleaving does what the stages
do on one input after the other.
-/

/-- The steps of the two stages on a shared state. -/
structure TwoStage (C X M O : Type*) where
  front : X → C → C × M × List O
  back : M → C → C × List O

namespace TwoStage

variable {C X M O : Type*} (p : TwoStage C X M O)

/-- The inputs and messages in flight, the shared state and the output. -/
structure Config (C X M O : Type*) where
  pending : List X
  queue : List M
  state : C
  emitted : List O

/-- The stage that takes the next step. -/
inductive Turn
  | front
  | back
  deriving DecidableEq, Repr

/-- One step; a stage without work cannot take its turn. -/
def turn : Turn → Config C X M O → Option (Config C X M O)
  | .front, ⟨x :: xs, q, c, out⟩ =>
    some ⟨xs, q ++ [(p.front x c).2.1], (p.front x c).1, out ++ (p.front x c).2.2⟩
  | .back, ⟨xs, m :: q, c, out⟩ => some ⟨xs, q, (p.back m c).1, out ++ (p.back m c).2⟩
  | _, _ => none

/-- An interleaving of the stages. -/
def schedule : List Turn → Config C X M O → Option (Config C X M O)
  | [], σ => some σ
  | t :: ts, σ => (p.turn t σ).bind (schedule ts)

/-- Both stages on one input after the other. -/
def sequential : List X → C → C × List O
  | [], c => (c, [])
  | x :: xs, c =>
    let r := p.front x c
    let s := p.back r.2.1 r.1
    let t := sequential xs s.1
    (t.1, r.2.2 ++ s.2 ++ t.2)

/-- The back stage on all messages of a queue. -/
def drain : List M → C → C × List O
  | [], c => (c, [])
  | m :: q, c =>
    let s := p.back m c
    let t := drain q s.1
    (t.1, s.2 ++ t.2)

/-- The stages do not interfere, and only the back stage has output. -/
structure Separated : Prop where
  quiet : ∀ x c, (p.front x c).2.2 = []
  message : ∀ x m c, (p.front x (p.back m c).1).2.1 = (p.front x c).2.1
  state : ∀ x m c, (p.front x (p.back m c).1).1 = (p.back m (p.front x c).1).1
  output : ∀ x m c, (p.back m (p.front x c).1).2 = (p.back m c).2

theorem drain_append (q : List M) (m : M) (c : C) : p.drain (q ++ [m]) c =
      ((p.back m (p.drain q c).1).1, (p.drain q c).2 ++ (p.back m (p.drain q c).1).2) := by
  induction q generalizing c with
  | nil => simp [drain]
  | cons m' q ih => simp [drain, ih]

variable {p}

variable (h : p.Separated)
include h

/-- A front step can be taken before or after the queue is worked off. -/
theorem Separated.drain_front (x : X) (q : List M) (c : C) :
    (p.front x (p.drain q c).1).2.1 = (p.front x c).2.1 ∧
      p.drain q (p.front x c).1 = ((p.front x (p.drain q c).1).1, (p.drain q c).2) := by
  induction q generalizing c with
  | nil => exact ⟨rfl, rfl⟩
  | cons m q ih =>
    obtain ⟨hmsg, hdrain⟩ := ih (p.back m c).1
    constructor
    · exact hmsg.trans (h.message x m c)
    · rw [h.state] at hdrain
      simp only [drain, hdrain, h.output]

/-- What remains to be done from a configuration, taken input by input. -/
def finish (p : TwoStage C X M O) (σ : Config C X M O) : C × List O :=
  let d := p.drain σ.queue σ.state
  let r := p.sequential σ.pending d.1
  (r.1, σ.emitted ++ d.2 ++ r.2)

/-- A step does not change what the configuration leads to. -/
theorem Separated.finish_turn {t : Turn} {σ τ : Config C X M O} (ht : p.turn t σ = some τ) :
    p.finish τ = p.finish σ := by
  obtain ⟨xs, q, c, out⟩ := σ
  cases t with
  | front =>
    cases xs with
    | nil => cases ht
    | cons x xs =>
      cases ht
      obtain ⟨hmsg, hdrain⟩ := h.drain_front x q c
      simp [finish, sequential, drain_append, hdrain, hmsg, h.quiet]
  | back =>
    cases q with
    | nil => cases ht
    | cons m q =>
      cases ht
      simp [finish, drain]

theorem Separated.finish_schedule {ts : List Turn} {σ τ : Config C X M O}
    (ht : p.schedule ts σ = some τ) : p.finish τ = p.finish σ := by
  induction ts generalizing σ with
  | nil =>
    cases ht
    rfl
  | cons t ts ih =>
    obtain ⟨ρ, hρ, hrest⟩ := Option.bind_eq_some_iff.mp ht
    exact (ih hrest).trans (h.finish_turn hρ)

/-- Every interleaving that works everything off is the sequential run. -/
theorem Separated.schedule_eq_sequential {ts : List Turn} {xs : List X} {c : C} {σ : Config C X M O}
    (ht : p.schedule ts ⟨xs, [], c, []⟩ = some σ) (hpend : σ.pending = [])
    (hq : σ.queue = []) :
    (σ.state, σ.emitted) = p.sequential xs c := by
  have hfinish := h.finish_schedule ht
  simp only [finish, hpend, hq, drain, sequential, List.append_nil, List.nil_append] at hfinish
  exact hfinish

end TwoStage
