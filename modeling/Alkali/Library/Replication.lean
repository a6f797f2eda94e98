import Mathlib.Data.Set.Insert

/-!
# Replicas of a service with private copies

A service handles events one after the other in a state of entries. Its replicas
have private copies of some of the entries, and each event is handled by one of
them. If whatever an event reads was last written by an event of the same replica,
the outputs are those of the service itself.
-/

namespace Replication

variable {E V Ev Out ι : Type}

/-- A service with the entries that it reads and writes for an event. -/
structure Service (E V Ev Out : Type) where
  handle : Ev → (E → V) → Out × (E → V)
  reads : Ev → (E → V) → Set E
  writes : Ev → (E → V) → Set E
  /-- Entries that are not written do not change. -/
  frame : ∀ ev c e, e ∉ writes ev c → (handle ev c).2 e = c e
  /-- What is read determines the output and what is written. -/
  determined : ∀ ev c c', (∀ e ∈ reads ev c, c' e = c e) →
    (handle ev c').1 = (handle ev c).1 ∧ writes ev c' = writes ev c ∧
      ∀ e ∈ writes ev c, (handle ev c').2 e = (handle ev c).2 e

namespace Service

variable (S : Service E V Ev Out)

/-- Handle events in order. -/
def serve : List Ev → (E → V) → List Out
  | [], _ => []
  | ev :: evs, c => (S.handle ev c).1 :: serve evs (S.handle ev c).2

/-- The state before event `k`. -/
def stateAt : List Ev → (E → V) → Nat → E → V
  | ev :: evs, c, k + 1 => stateAt evs (S.handle ev c).2 k
  | _, c, _ => c

/-- Event `k` writes an entry. -/
def WritesAt (evs : List Ev) (c : E → V) (k : Nat) (e : E) : Prop :=
  ∃ ev, evs[k]? = some ev ∧ e ∈ S.writes ev (S.stateAt evs c k)

variable [DecidableEq ι] (owned : E → Bool) (dispatch : Nat → ι)

/-- What a replica sees: its copies of the owned entries, and the shared others. -/
def view (copies : ι → E → V) (shared : E → V) (r : ι) (e : E) : V :=
  if owned e then copies r e else shared e

/-- Handle events in order, event `k` by the replica `dispatch k`. -/
def serveReplicas : Nat → List Ev → (ι → E → V) → (E → V) → List Out
  | _, [], _, _ => []
  | k, ev :: evs, copies, shared =>
    let result := S.handle ev (view owned copies shared (dispatch k))
    result.1 :: serveReplicas (k + 1) evs
      (Function.update copies (dispatch k) result.2) result.2

/-- An owned entry that an event reads was last written by an event of its replica. -/
def Together (evs : List Ev) (c : E → V) : Prop :=
  ∀ j k ev, j < k → evs[k]? = some ev → ∀ e, owned e → S.WritesAt evs c j e →
    e ∈ S.reads ev (S.stateAt evs c k) → (∀ l, j < l → l < k → ¬ S.WritesAt evs c l e) →
      dispatch j = dispatch k

variable {S owned dispatch}

/-- The copies of a replica are right outside of its stale entries, and an event of
the rest reads no stale entry of its replica that is not written before. -/
structure Fresh (S : Service E V Ev Out) (owned : E → Bool) (dispatch : Nat → ι) (k : Nat)
    (evs : List Ev) (c : E → V) (copies : ι → E → V) (shared : E → V) (stale : ι → Set E) :
    Prop where
  shared : ∀ e, owned e = false → shared e = c e
  copies : ∀ r e, owned e → e ∉ stale r → copies r e = c e
  reads : ∀ i ev, evs[i]? = some ev → ∀ e ∈ S.reads ev (S.stateAt evs c i), owned e →
    (∀ l < i, ¬ S.WritesAt evs c l e) → e ∉ stale (dispatch (k + i))
  together : S.Together owned (fun i => dispatch (k + i)) evs c

variable {k : Nat} {evs : List Ev} {c shared : E → V} {copies : ι → E → V} {stale : ι → Set E}

omit [DecidableEq ι] in
/-- What an event reads is seen by its replica. -/
theorem Fresh.view {ev : Ev} (h : Fresh S owned dispatch k (ev :: evs) c copies shared stale) :
    ∀ e ∈ S.reads ev c, view owned copies shared (dispatch k) e = c e := by
  intro e he
  cases howned : owned e with
  | false => simp [Service.view, howned, h.shared e howned]
  | true =>
    have hfresh : e ∉ stale (dispatch k) := h.reads 0 ev rfl e he howned (by simp)
    simp [Service.view, howned, h.copies (dispatch k) e howned hfresh]

/-- The state after an event, with what it has written. -/
theorem Fresh.next {ev : Ev} (h : Fresh S owned dispatch k (ev :: evs) c copies shared stale) :
    Fresh S owned dispatch (k + 1) evs (S.handle ev c).2
      (Function.update copies (dispatch k)
        (S.handle ev (Service.view owned copies shared (dispatch k))).2)
      (S.handle ev (Service.view owned copies shared (dispatch k))).2
      (fun r => if r = dispatch k then stale r \ S.writes ev c else stale r ∪ S.writes ev c) := by
  obtain ⟨-, hwrites, hvals⟩ := S.determined ev c _ h.view
  -- what is written is the same, everything else is as before
  have hafter : ∀ e, Service.view owned copies shared (dispatch k) e = c e →
      (S.handle ev (Service.view owned copies shared (dispatch k))).2 e = (S.handle ev c).2 e := by
    intro e he
    by_cases hw : e ∈ S.writes ev c
    · exact hvals e hw
    · rw [S.frame ev _ e (hwrites ▸ hw), S.frame ev c e hw, he]
  have hnext : ∀ i, dispatch (k + (i + 1)) = dispatch (k + 1 + i) := fun i => by
    rw [Nat.add_right_comm, Nat.add_assoc]
  refine ⟨fun e howned => ?_, fun r e howned hstale => ?_,
    fun i ev' hev' e he howned hunwritten => ?_, ?_⟩
  · exact hafter e (by simp [Service.view, howned, h.shared e howned])
  · by_cases hr : r = dispatch k
    · subst hr
      rw [Function.update_self]
      by_cases hw : e ∈ S.writes ev c
      · exact hvals e hw
      · have hold : e ∉ stale (dispatch k) := fun hs => hstale (by simp [hs, hw])
        exact hafter e (by simp [Service.view, howned, h.copies _ e howned hold])
    · rw [if_neg hr, Set.mem_union, not_or] at hstale
      rw [Function.update_of_ne hr, S.frame ev c e hstale.2, h.copies r e howned hstale.1]
  · rw [← hnext]
    by_cases hw : e ∈ S.writes ev c
    · -- the event is the last one to write the entry, so that its replica reads it
      have hsame := h.together 0 (i + 1) ev' (Nat.succ_pos i) hev' e howned ⟨ev, rfl, hw⟩ he
        (fun l hpos hl => by
          obtain ⟨l, rfl⟩ := Nat.exists_eq_succ_of_ne_zero (Nat.ne_of_gt hpos)
          exact hunwritten l (Nat.lt_of_succ_lt_succ hl))
      simp [← hsame, hw]
    · have hold := h.reads (i + 1) ev' hev' e he howned (fun l hl => by
        cases l with
        | zero =>
          rintro ⟨_, heq, hw'⟩
          cases heq
          exact hw hw'
        | succ l => exact hunwritten l (Nat.lt_of_succ_lt_succ hl))
      split <;> simp [hold, hw]
  · intro i j ev₂ hij h₂ e howned hw hr hbetween
    have hsame := h.together (i + 1) (j + 1) ev₂ (Nat.succ_lt_succ hij) h₂ e howned hw hr
      (fun l hil hlj => by
        obtain ⟨l, rfl⟩ := Nat.exists_eq_succ_of_ne_zero (Nat.ne_of_gt (Nat.zero_lt_of_lt hil))
        exact hbetween l (Nat.lt_of_succ_lt_succ hil) (Nat.lt_of_succ_lt_succ hlj))
    simpa only [hnext] using hsame

theorem Fresh.serve_eq (h : Fresh S owned dispatch k evs c copies shared stale) :
    S.serveReplicas owned dispatch k evs copies shared = S.serve evs c := by
  induction evs generalizing k c copies shared stale with
  | nil => rfl
  | cons ev evs ih =>
    rw [serveReplicas, serve, ih h.next, (S.determined ev c _ h.view).1]

/-- The replicas give the outputs of the service. -/
theorem Together.serve_eq (h : S.Together owned dispatch evs c) :
    S.serveReplicas owned dispatch 0 evs (fun _ => c) c = S.serve evs c := by
  have hfresh : Fresh S owned dispatch 0 evs c (fun _ => c) c fun _ => ∅ :=
    ⟨fun _ _ => rfl, fun _ _ _ _ => rfl, fun _ _ _ _ _ _ _ => Set.notMem_empty _,
      by simpa using h⟩
  exact hfresh.serve_eq

end Service

end Replication
