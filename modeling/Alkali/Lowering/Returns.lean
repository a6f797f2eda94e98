import Alkali.Lowering.Backend
import Alkali.Atomic.Agree
import Alkali.Linearize.Move
import Mathlib.Data.List.Pairwise

/-!
# Events that are returned

A handler emits an event when it executes a `ReturnOp`. The event is what the
`InitOp` of the returned value has built. The conditions on handlers here are what
the compiler asserts of them.
-/

namespace Alkali

open List Operation

/-- The state of a handler with the events that it has built and emitted. An event
is written as the call or enqueue that sends it. -/
structure EventState (Val : Type) where
  state : State Val
  built : Value → Option (Message Val)
  log : List (Message Val)

/-- The event that an instruction initialises. -/
def Instr.inits : Instr → List Value
  | op o => o.event?.toList.map Prod.snd
  | _ => []

def Instr.returned : Instr → List Value
  | op o => o.returned
  | _ => []

section Semantics

variable {Val : Type} [Inhabited Val] [DecidableEq Val] (B : Backend) (f : FuncOp) (I : Interp Val)

/-- Execute an operation: an `InitOp` of an event builds it, a `ReturnOp` emits what
was built for its operand. -/
def EventState.step (o : Operation) (s : EventState Val) : EventState Val :=
  if o.enabled I s.state.env then
    { state := o.inner.step I silent s.state
      built := match B.eventSend f o.inner with
        | some d => Function.update s.built d.event (some (d.message s.state.env))
        | none => s.built
      log := s.log ++ (plain o.inner).returned.filterMap s.built }
  else s

/-- Execute an instruction of a handler. -/
def Instr.eventStep : Instr → EventState Val → Option (EventState Val)
  | op o, s => some (s.step B f I o)
  | x, s => (x.step I silent s.state).map fun t => { s with state := t }

def execEvents : List Instr → EventState Val → Option (EventState Val)
  | [], s => some s
  | x :: xs, s => (x.eventStep B f I s).bind (execEvents xs)

/-- A call of the handler that follows a walk and emits events. -/
def FuncOp.Emits (w : List FuncOp.Leg) (inputs : List Val) (cells : Cell → Val → Val)
    (log : List (Message Val)) : Prop :=
  f.Walk 0 w ∧ ∃ s, execEvents B f I (f.code w)
    ⟨initialState (f.argsOf 0) inputs cells, fun _ => none, []⟩ = some s ∧ s.log = log

theorem execEvents_append (xs ys : List Instr) (s : EventState Val) :
    execEvents B f I (xs ++ ys) s = (execEvents B f I xs s).bind (execEvents B f I ys) := by
  induction xs generalizing s with
  | nil => rfl
  | cons x xs ih =>
    rw [cons_append, execEvents, execEvents, Option.bind_assoc]
    exact Option.bind_congr fun t _ => ih t

theorem Instr.eventStep_of_ne {x : Instr} (h : ∀ p, x ≠ .op p) (s : EventState Val) :
    x.eventStep B f I s = (x.step I silent s.state).map fun t => { s with state := t } := by
  cases x with
  | op p => exact absurd rfl (h p)
  | bind => rfl
  | test => rfl

/-- Instructions that are not operations neither build nor emit events. -/
theorem execEvents_of_no_op {xs : List Instr} (h : ∀ p, .op p ∉ xs) (s : EventState Val) :
    execEvents B f I xs s =
      (execInstrs I silent xs s.state).map fun t => { s with state := t } := by
  induction xs generalizing s with
  | nil => rfl
  | cons x xs ih =>
    have hx : ∀ p, x ≠ .op p := fun p hp => h p (by simp [hp])
    rw [execEvents, Instr.eventStep_of_ne B f I hx, execInstrs_cons]
    cases hstep : x.step I silent s.state with
    | none => rfl
    | some t => exact ih (fun p hp => h p (by simp [hp])) { s with state := t }

/-- Every run builds and emits events on its way. -/
theorem exists_execEvents {xs : List Instr} {s : EventState Val} {u : State Val}
    (h : execInstrs I silent xs s.state = some u) : ∃ s', execEvents B f I xs s = some s' := by
  induction xs generalizing s with
  | nil => exact ⟨s, rfl⟩
  | cons x xs ih =>
    obtain ⟨t, ht, hrest⟩ := Option.bind_eq_some_iff.mp h
    have hstep : ∃ s', x.eventStep B f I s = some s' ∧ s'.state = t := by
      cases x with
      | op o =>
        refine ⟨_, rfl, ?_⟩
        cases ht
        rw [EventState.step]
        split
        · next hen => exact (step_of_enabled hen).symm
        · next hen =>
            exact (step_of_not_enabled (by simpa using hen)).symm
      | bind | test =>
        exact ⟨{ s with state := t }, by
          rw [Instr.eventStep_of_ne B f I (by simp), ht]
          rfl, rfl⟩
    obtain ⟨s', hs', rfl⟩ := hstep
    obtain ⟨s'', hs''⟩ := ih hrest
    exact ⟨s'', by rw [execEvents, hs']; exact hs''⟩

end Semantics

section Lists

variable {α β : Type}

theorem eq_of_mem_flatMap {l : List α} {g : α → List β} (h : (l.flatMap g).Nodup) {x y : α}
    (hx : x ∈ l) (hy : y ∈ l) {v : β} (hvx : v ∈ g x) (hvy : v ∈ g y) : x = y := by
  by_contra hne
  have hsymm : Std.Symm (Function.onFun List.Disjoint g) := ⟨fun _ _ hab _ hx hy => hab hy hx⟩
  exact (nodup_flatMap.mp h).2.forall hx hy hne hvx hvy

/-- Elements of a list with distinct keys are determined by their keys. -/
theorem eq_of_map_eq {xs ys : List α} {key : α → β} (hnd : (xs.map key).Nodup)
    (hsub : ys ⊆ xs) (hkeys : ys.map key = xs.map key) : ys = xs := by
  refine ext_getElem (by simpa using congrArg List.length hkeys) fun i hi hi' => ?_
  have hkey : key ys[i] = key xs[i] := by
    simpa [hi, hi'] using congrArg (fun l => l[i]?) hkeys
  exact inj_on_of_nodup_map hnd (hsub (getElem_mem hi)) (getElem_mem hi') hkey

end Lists

namespace FuncOp

variable (f : FuncOp)

/-- The values that `InitOp`s of events define. -/
def eventValues : List Value := f.operations.flatMap fun o => (Instr.op o).inits

/-- A `ReturnOp` returns what the `InitOp` of an event defines, as the code asserts. -/
def ReturnsEvents : Prop :=
  ∀ o ∈ f.operations, ∀ v ∈ o.returned, ((f.definingOp v).bind event?).isSome

/-- Only `ReturnOp`s use the given values. -/
def OnlyReturned (vs : List Value) : Prop :=
  ∀ v ∈ vs, ∀ o ∈ f.operations, v ∈ o.uses → o.isReturn

instance : Decidable f.ReturnsEvents :=
  inferInstanceAs (Decidable (∀ o ∈ f.operations, ∀ v ∈ o.returned,
    ((f.definingOp v).bind event?).isSome))

instance (vs : List Value) : Decidable (f.OnlyReturned vs) :=
  inferInstanceAs (Decidable (∀ v ∈ vs, ∀ o ∈ f.operations, v ∈ o.uses → o.isReturn))

variable {f}
variable {v : Value}

theorem inits_of_event {op : PlainOp} {name : String} (h : op.event? = some (name, v)) :
    op.results.map Prod.fst = [v] ∧ op.kind.isPure ∧ op.kind ≠ .ret := by
  unfold PlainOp.event? at h
  split at h
  · next hkind hres =>
      cases h
      exact ⟨by rw [hres]; rfl, by rw [hkind]; rfl, by rw [hkind]; exact fun h => nomatch h⟩
  · cases h

theorem mem_eventValues :
    v ∈ f.eventValues ↔ ∃ op name, .plain op ∈ f.operations ∧ op.event? = some (name, v) := by
  simp only [eventValues, mem_flatMap]
  constructor
  · rintro ⟨o, ho, hv⟩
    cases o with
    | guard => cases hv
    | plain op =>
      simp only [Instr.inits, event?, mem_map, Option.mem_toList] at hv
      obtain ⟨⟨name, u⟩, hu, rfl⟩ := hv
      exact ⟨op, name, ho, hu⟩
  · rintro ⟨op, name, hop, hv⟩
    exact ⟨_, hop, by simp [Instr.inits, event?, hv]⟩

/-- What is bound on a walk is the result of an operation or an argument of a block. -/
theorem mem_code_binds {b : Nat} {w : List Leg} (hw : f.Walk b w) {x : Instr} (hx : x ∈ f.code w) :
    (∃ c, ∃ o ∈ f.opsOf c, x = .op o) ∨ (∀ o, x ≠ .op o) ∧ ∃ c, x.binds ⊆ f.argsOf c := by
  rcases mem_code hw hx with hop | ⟨_, d, _, hedge, hx⟩
  · exact Or.inl hop
  · refine Or.inr ⟨fun o ho => op_not_mem_edge hedge o (ho ▸ hx), d, fun v hv => ?_⟩
    rw [← binds_of_edge hedge]
    exact mem_flatMap.mpr ⟨x, hx, hv⟩

/-- The `InitOp` of an event is an operation of a block. -/
theorem opsOf_of_eventValue (h : v ∈ f.eventValues) :
    ∃ c op name, .plain op ∈ f.opsOf c ∧ op.event? = some (name, v) := by
  obtain ⟨op, name, hop, hev⟩ := mem_eventValues.mp h
  obtain ⟨blk, hblk, hop⟩ := mem_flatMap.mp hop
  obtain ⟨c, hc⟩ := mem_iff_getElem?.mp hblk
  rcases mem_append.mp hop with hop | hop
  · exact ⟨c, op, name, by simpa [opsOf, hc] using hop, hev⟩
  · -- a terminator has no results
    rw [mem_singleton] at hop
    cases hterm : blk.term <;>
      · rw [hterm] at hop
        cases hop
        cases hev

/-- An event value is not an argument of a block, and only its `InitOp` binds it. -/
theorem SsaForm.eventValue_unique (hf : f.SsaForm) (h : v ∈ f.eventValues) :
    (∀ c, v ∉ f.argsOf c) ∧ ∀ c, ∀ o ∈ f.opsOf c, v ∈ o.binds → v ∈ (Instr.op o).inits := by
  obtain ⟨b, op, name, hop, hev⟩ := opsOf_of_eventValue h
  have hv : v ∈ (plain op).binds := by
    rw [binds, inner_plain, (inits_of_event hev).1]
    exact mem_singleton_self v
  have hbind : v ∈ f.bindingsOf b := mem_append_right _ (mem_flatMap.mpr ⟨_, hop, hv⟩)
  have hblock : ∀ c, v ∈ f.bindingsOf c → c = b := by
    intro c hc
    by_contra hne
    exact hf.disjoint c b hne hc hbind
  refine ⟨fun c hc => ?_, fun c o ho hbo => ?_⟩
  · obtain rfl := hblock c (mem_append_left _ hc)
    exact (nodup_append.mp (hf.nodup c)).2.2 v hc v
      (mem_flatMap.mpr ⟨_, hop, hv⟩) rfl
  · obtain rfl := hblock c (mem_append_right _ (mem_flatMap.mpr ⟨_, ho, hbo⟩))
    have hnd := (nodup_append.mp (hf.nodup c)).2.1
    rw [eq_of_mem_flatMap hnd ho hop hbo hv]
    simp [Instr.inits, event?, hev]

end FuncOp

end Alkali
