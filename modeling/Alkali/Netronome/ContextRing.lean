import Mathlib.Logic.Function.Basic

/-!
# The ring of contexts

The generated allocator takes the contexts of events from a ring of 128 entries by a counter
that only goes up. Events wait in work queues or are processed by the threads of the micro
engines. An entry is never given back.
-/

namespace Alkali.Netronome.ContextRing

open List

/-- `nextPow2` on `unsigned`. -/
def nextPow2 (x : BitVec 32) : BitVec 32 :=
  let x := x - 1
  let x := x ||| (x >>> 1)
  let x := x ||| (x >>> 2)
  let x := x ||| (x >>> 4)
  let x := x ||| (x >>> 8)
  let x := x ||| (x >>> 16)
  x + 1

/-- An event queue of one replica: the size of the fields of a work item, which the emitter
counts, the size of what it adds behind them (padding, meta data and the pointer to the context),
and `qInfo.size`. -/
structure Queue where
  sz : Nat
  added : Nat
  size : Nat
  deriving DecidableEq, Repr

/-- The number of items that fit into `WORKQ_SIZE` bytes. -/
def Queue.capacity (q : Queue) : Nat :=
  (nextPow2 (BitVec.ofNat 32 (q.sz * q.size))).toNat / (q.sz + q.added)

structure Config where
  queues : List Queue
  threads : Nat
  deriving DecidableEq, Repr

/-- Contexts are numbered in the order of their allocation, so that an event is the number of its
context. `qHead` is the next number. -/
structure State where
  qHead : Nat
  waiting : Nat → List Nat
  processing : List Nat

/-- The entry that `alloc_context_chain_ring_entry` returns. -/
def entry (n : Nat) : Nat := (BitVec.ofNat 32 n &&& 127#32).toNat

inductive Action
  | alloc
  | enqueue (i q : Nat)
  | dequeue (q : Nat)
  | finish (i : Nat)

namespace State

def init : State := ⟨0, fun _ => [], []⟩

/-- A handler allocates a context for a new event, sends an event on or is done with it; a thread
takes an event from a queue. -/
def step (cfg : Config) (s : State) : Action → Option State
  | .alloc =>
    if s.processing.length < cfg.threads then
      some { s with qHead := s.qHead + 1, processing := s.processing ++ [s.qHead] }
    else none
  | .enqueue i q => do
    let c ← s.processing[i]?
    let queue ← cfg.queues[q]?
    if (s.waiting q).length < queue.capacity then
      some { s with
        waiting := Function.update s.waiting q (s.waiting q ++ [c])
        processing := s.processing.eraseIdx i }
    else none
  | .dequeue q =>
    match s.waiting q with
    | [] => none
    | c :: rest =>
      if s.processing.length < cfg.threads then
        some { s with
          waiting := Function.update s.waiting q rest
          processing := s.processing ++ [c] }
      else none
  | .finish i =>
    if i < s.processing.length then some { s with processing := s.processing.eraseIdx i }
    else none

/-- An event that waits or is processed. -/
def Live (s : State) (c : Nat) : Prop := c ∈ s.processing ∨ ∃ q, c ∈ s.waiting q

inductive Reachable (cfg : Config) : State → Prop
  | init : Reachable cfg init
  | step {s t : State} (a : Action) (hs : Reachable cfg s) (h : s.step cfg a = some t) :
      Reachable cfg t

/-- No entry is handed out while an event has it. -/
def Safe (cfg : Config) : Prop :=
  ∀ s, Reachable cfg s → s.processing.length < cfg.threads → ∀ c, s.Live c → entry c ≠ entry s.qHead

variable {cfg : Config} {s : State}

theorem entry_eq (n : Nat) : entry n = n % 128 := by
  show n % 2 ^ 32 &&& (2 ^ 7 - 1) = n % 128
  rw [Nat.and_two_pow_sub_one_eq_mod]
  omega

/-- Events that are done at once only move the counter. -/
theorem Reachable.rounds (hs : Reachable cfg s) (hroom : s.processing.length < cfg.threads)
    (k : Nat) : Reachable cfg { s with qHead := s.qHead + k } := by
  induction k with
  | zero => exact hs
  | succ k ih =>
    refine .step (.finish s.processing.length) (.step .alloc ih (if_pos hroom)) ?_
    simp [State.step, eraseIdx_append_of_length_le, Nat.add_assoc]

/-- An event that stays while 127 others come and go. -/
theorem not_safe_of_live (hs : Reachable cfg s) (hroom : s.processing.length < cfg.threads)
    (hhead : s.qHead = 1) (hlive : s.Live 0) : ¬ Safe cfg := by
  intro hsafe
  refine hsafe _ (hs.rounds hroom 127) hroom 0 hlive ?_
  show entry 0 = entry (s.qHead + 127)
  rw [entry_eq, entry_eq, hhead]

theorem waiting_of_no_room (hcap : ∀ q ∈ cfg.queues, q.capacity = 0) (hs : Reachable cfg s)
    (q : Nat) : s.waiting q = [] := by
  induction hs generalizing q with
  | init => rfl
  | @step s t a _ h ih =>
    cases a with
    | alloc =>
      obtain ⟨-, heq⟩ := Option.ite_none_right_eq_some.mp h
      cases heq
      exact ih q
    | enqueue i q' =>
      obtain ⟨c, -, h⟩ := Option.bind_eq_some_iff.mp h
      obtain ⟨queue, hq, h⟩ := Option.bind_eq_some_iff.mp h
      obtain ⟨hlt, -⟩ := Option.ite_none_right_eq_some.mp h
      rw [hcap queue (mem_of_getElem? hq)] at hlt
      exact absurd hlt (Nat.not_lt_zero _)
    | dequeue q' => simp [step, ih q'] at h
    | finish i =>
      obtain ⟨-, heq⟩ := Option.ite_none_right_eq_some.mp h
      cases heq
      exact ih q

/-- The allocator is safe only where no event can stay: without threads, or with one thread and
no queue that an event fits into. -/
theorem safe_iff (cfg : Config) :
    Safe cfg ↔ cfg.threads = 0 ∨ cfg.threads = 1 ∧ ∀ q ∈ cfg.queues, q.capacity = 0 := by
  constructor
  · intro hsafe
    by_contra hne
    rw [not_or, not_and_or] at hne
    obtain ⟨hzero, hne⟩ := hne
    have hfirst : Reachable cfg ⟨1, fun _ => [], [0]⟩ :=
      .step .alloc .init (if_pos (Nat.pos_of_ne_zero hzero))
    by_cases hone : cfg.threads = 1
    · obtain ⟨queue, hmem, hcap⟩ : ∃ q ∈ cfg.queues, q.capacity ≠ 0 := by
        simpa [hone] using hne
      obtain ⟨q, hq⟩ := mem_iff_getElem?.mp hmem
      have hwaits : Reachable cfg ⟨1, Function.update (fun _ => []) q [0], []⟩ := by
        refine .step (.enqueue 0 q) hfirst ?_
        simp [step, hq, Nat.pos_of_ne_zero hcap]
      exact not_safe_of_live hwaits (by simp [hone]) rfl
        (Or.inr ⟨q, by simp⟩) hsafe
    · exact not_safe_of_live hfirst (by simp; omega) rfl (Or.inl (by simp)) hsafe
  · rintro (hzero | ⟨hone, hcap⟩) s hs hroom c hlive
    · omega
    · have hidle : s.processing = [] := length_eq_zero_iff.mp (by omega)
      rcases hlive with hlive | ⟨q, hlive⟩
      · simp [hidle] at hlive
      · simp [waiting_of_no_room hcap hs] at hlive

end State

/-! ## The default size -/

/-- One queue of the default size, and one thread. -/
def oneQueue : Config := ⟨[⟨24, 8, 128⟩], 1⟩

theorem oneQueue_filled (n : Nat) (hn : n ≤ 128) :
    State.Reachable oneQueue ⟨n, Function.update (fun _ => []) 0 (List.range n), []⟩ := by
  have hcap : (⟨24, 8, 128⟩ : Queue).capacity = 128 := by decide
  induction n with
  | zero =>
    rw [range_zero, Function.update_eq_self_iff.mpr rfl]
    exact .init
  | succ n ih =>
    refine .step (.enqueue 0 0) (.step .alloc (ih (by omega)) rfl) ?_
    simp [State.step, oneQueue, hcap, range_succ]
    omega

/-- With 128 events in the queue, the next event gets the entry of the first one. -/
theorem oneQueue_not_safe :
    ∃ s, State.Reachable oneQueue s ∧ s.processing.length < oneQueue.threads ∧
      ∃ c, s.Live c ∧ entry c = entry s.qHead :=
  ⟨_, oneQueue_filled 128 (Nat.le_refl _), by decide, 0, Or.inr ⟨0, by simp⟩, by decide⟩

end Alkali.Netronome.ContextRing
