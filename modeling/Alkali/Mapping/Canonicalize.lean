import Alkali.Linearize.Lift
import Alkali.Lowering.Backend
import Alkali.Mapping.Module
import Alkali.Pipeline.GraphEdges

/-!
# Names of the stages

`preMappingCanonicalize` names the stages of a pipeline and makes every stage send to
the next one. It rewrites all events of a stage, while only one of them carries values
to the next stage: each becomes an event of the next stage, returned on the spot.
-/

namespace Alkali

open List Operation

namespace FuncOp

variable (f : FuncOp) (next : HandlerFullName) (init : PlainOp)

/-- The constant, the event of the next stage and its return, which take the place of
an event. The operands of the old event follow the atom. -/
def forward : List Operation :=
  let c := f.nextValue
  let ty : Ty := .struct true (.atom :: init.operands.map fun v => (f.typeOf v).getD .any)
    next.event
  [.plain ⟨f.nextId, .constant next.atom, [], [(c, .atom)]⟩,
    .plain ⟨f.nextId + 1, .init ty, c :: init.operands, [(c + 1, ty)]⟩,
    .plain ⟨f.nextId + 2, .ret, [c + 1], []⟩]

/-- `getUsers`; an operation inside of a guard counts for the guard. -/
def isUser (o : Operation) : Bool :=
  init.results.any fun r => r.1 ∈ o.uses

/-- What becomes of an operation. A guard whose operation is erased has nothing left
to do. -/
def renameOp (o : Operation) : List Operation :=
  if o = .plain init then f.forward next init else if isUser init o then [] else [o]

/-- The users of an event can be erased: their results have no other uses (a later
use is erased first), and none of them ends a block. -/
def usersErasable : Bool :=
  (f.operations.all fun o => !isUser init o || (o.defs.all fun v =>
    f.operations.all fun p => v ∉ p.uses || isUser init p)) &&
  f.blocks.all fun blk => !isUser init (blk.term.toOperation blk.termId)

/-- The function after an event is renamed; `none` when the event is gone already,
or an operation with uses is erased. -/
def renameInit : Option FuncOp :=
  if .plain init ∈ f.operations ∧ f.usersErasable init then
    some { f with
      blocks := f.blocks.map fun blk =>
        { blk with ops := blk.ops.flatMap (f.renameOp next init) } }
  else none

/-- The events that the walk collects. -/
def toRename : List PlainOp := (f.operations.filter isEventInit).map inner

def renameInits : Option FuncOp :=
  f.toRename.foldlM (fun g init => g.renameInit next init) f

end FuncOp

namespace ModuleFunc

variable (s : ModuleFunc)

/-- `HandlerFullName` of a function; the code asserts that there is an event. -/
def fullName : HandlerFullName := ⟨s.event.getD "", s.atom.getD ""⟩

/-- The name that the first stage has or gets. -/
def firstName : HandlerFullName := ⟨s.event.getD "Main", s.atom.getD "main"⟩

def setFullName (n : HandlerFullName) : ModuleFunc :=
  { s with event := some n.event, atom := some n.atom, func := { s.func with name := n.mangle } }

end ModuleFunc

/-- The name of the stage with index `i`: on Netronome atoms are distinct too. -/
def stageName (mode : String) (first : HandlerFullName) (i : Nat) : HandlerFullName :=
  if i = 0 then first
  else ⟨first.event ++ "_" ++ toString i,
    if mode = "netronome" then first.atom ++ "_" ++ toString i else first.atom⟩

/-- The stages from index `i` on. -/
def canonicalizeFrom (mode : String) (first : HandlerFullName) :
    Nat → List ModuleFunc → Option (List ModuleFunc)
  | _, [] => some []
  | i, [s] => some [s.setFullName (stageName mode first i)]
  | i, s :: t :: rest => do
    let func ← s.func.renameInits (stageName mode first (i + 1))
    let stages ← canonicalizeFrom mode first (i + 1) (t :: rest)
    some ({ s with func }.setFullName (stageName mode first i) :: stages)

def preMappingCanonicalize (mode : String) (pipeline : List ModuleFunc) :
    Option (List ModuleFunc) :=
  match pipeline with
  | [] => some []
  | s :: rest => canonicalizeFrom mode s.firstName 0 (s :: rest)

/-! ## What a stage returns -/

/-- The operation returns the value when the values of the conditions are `truth`. -/
def Operation.returns (truth : Value → Bool) (v : Value) : Operation → Bool
  | .plain op => op.kind == .ret && op.operands.contains v
  | .guard _ preds predAttrs body =>
    ((preds.zip predAttrs).all fun p => truth p.1 == p.2) &&
      (body.kind == .ret && body.operands.contains v)

namespace FuncOp

variable (f : FuncOp)

/-- A walk from the entry to an end, and values of the conditions with which it is
taken. -/
structure Takes (w : List Leg) (truth : Value → Bool) : Prop where
  walk : f.Walk 0 w
  tests : ∀ leg ∈ w, ∀ cond want, .test cond want ∈ leg.2 → truth cond = want

/-- The operations of a walk. -/
def opsAlong (w : List Leg) : List Operation := w.flatMap fun leg => f.opsOf leg.1

/-- How often a value is returned on a walk. -/
def timesReturned (w : List Leg) (truth : Value → Bool) (v : Value) : Nat :=
  (f.opsAlong w).countP (returns truth v)

/-- Two events, one in each function, are returned under the same conditions. -/
def SameReturns (f' : FuncOp) (init init' : PlainOp) : Prop :=
  ∀ w truth, f.Takes w truth → ∀ v ∈ init.results, ∀ v' ∈ init'.results,
    f'.timesReturned w truth v'.1 = f.timesReturned w truth v.1

/-- Of all operations of a stage, only the event that carries the values to the next
stage has changed. -/
structure OnlyCarrier (f' : FuncOp) (carrier : PlainOp) (next : HandlerFullName) : Prop where
  renamed : ∃ init tys, .plain init ∈ f'.operations ∧
    init.kind = .init (.struct true tys next.event) ∧
    f'.fullName next.event init.operands = some next ∧ init.operands.tail = carrier.operands ∧
    (∃ v, init.results = [v]) ∧ f.SameReturns f' carrier init
  others : ∀ init, .plain init ∈ f.operations → isEventInit (.plain init) →
    init ≠ carrier → ∃ init', .plain init' ∈ f'.operations ∧ init'.kind = init.kind ∧
      init'.operands = init.operands ∧ f.SameReturns f' init init'
  kept : ∀ o ∈ f.operations, ¬ o.isEventInit →
    (∀ v ∈ carrier.results, o.inner.kind = .ret → v.1 ∉ o.inner.operands) → o ∈ f'.operations

/-- The stage sends one event only, which goes to the next stage: nothing else uses the
event, and it is returned once wherever it is initialised. -/
structure SendsOnly (carrier : PlainOp) : Prop where
  only : ∀ o ∈ f.operations, o.isEventInit → o = .plain carrier
  users : ∀ o ∈ f.operations, ¬ o.isEventInit → isUser carrier o →
    o.inner.kind = .ret ∧ ∃ v ∈ carrier.results, v.1 ∈ o.inner.operands
  returned : ∀ w truth, f.Takes w truth → ∀ v ∈ carrier.results,
    f.timesReturned w truth v.1 = (f.opsAlong w).count (.plain carrier)

/-- The operation is an event of the function; it does not use itself. -/
structure IsCarrier (carrier : PlainOp) : Prop where
  mem : .plain carrier ∈ f.operations
  event : isEventInit (.plain carrier)
  operands : ¬ isUser carrier (.plain carrier)

end FuncOp

/-! ## One event -/

namespace FuncOp

variable {f g : FuncOp} {next : HandlerFullName} {init carrier : PlainOp} {o : Operation}
  {v : Value}

theorem isEventInit_term (t : Terminator) (id : OpId) : ¬ (t.toOperation id).isEventInit := by
  cases t <;> simp [Terminator.toOperation, isEventInit, kind?]

theorem IsCarrier.mem_bodyOps (h : f.IsCarrier carrier) : .plain carrier ∈ f.bodyOps := by
  refine (mem_operations_iff_body.mp h.mem).resolve_right ?_
  rintro ⟨blk, -, hterm⟩
  exact isEventInit_term blk.term blk.termId (hterm ▸ h.event)

theorem mem_uses_of_returns {truth : Value → Bool} (h : o.returns truth v) : v ∈ o.uses := by
  cases o <;> simp_all [returns, uses]

section RenameInit

variable (h : f.renameInit next init = some g)

include h

theorem renameInit_eq_some : .plain init ∈ f.operations ∧ f.usersErasable init ∧ g = { f with
      blocks := f.blocks.map fun blk =>
        { blk with ops := blk.ops.flatMap (f.renameOp next init) } } := by
  rw [renameInit] at h
  split_ifs at h with hcond
  exact ⟨hcond.1, hcond.2, (Option.some.inj h).symm⟩

theorem bodyOps_renameInit : g.bodyOps = f.bodyOps.flatMap (f.renameOp next init) := by
  rw [(renameInit_eq_some h).2.2]
  simp only [bodyOps, flatMap_map, flatMap_assoc]

theorem mem_renameInit : o ∈ g.operations ↔ (∃ p ∈ f.bodyOps, o ∈ f.renameOp next init p) ∨
      ∃ blk ∈ f.blocks, o = blk.term.toOperation blk.termId := by
  rw [mem_operations_iff_body, bodyOps_renameInit h, mem_flatMap, (renameInit_eq_some h).2.2]
  simp

theorem opsAlong_renameInit (w : List Leg) :
    g.opsAlong w = (f.opsAlong w).flatMap (f.renameOp next init) := by
  have hops (b : Nat) : g.opsOf b = (f.opsOf b).flatMap (f.renameOp next init) := by
    rw [(renameInit_eq_some h).2.2]
    simp only [opsOf, getElem?_map]
    cases f.blocks[b]? <;> rfl
  simp only [opsAlong, hops, flatMap_assoc]

end RenameInit

theorem mem_renameOp {p : Operation} : o ∈ f.renameOp next init p ↔
    (p = .plain init ∧ o ∈ f.forward next init) ∨ (p ≠ .plain init ∧ ¬ isUser init p ∧ o = p) := by
  rw [renameOp]
  split_ifs with hinit huser
  · simp [hinit]
  · simp [hinit, huser]
  · simp [hinit, huser]

theorem head?_of_mem_forward (ho : o ∈ f.forward next init) (hev : o.isEventInit) :
    o.inner.operands.head? = some f.nextValue := by
  simp only [forward, mem_cons, not_mem_nil, or_false] at ho
  rcases ho with rfl | rfl | rfl
  · cases hev
  · rfl
  · cases hev

theorem opsAlong_subset (w : List Leg) : f.opsAlong w ⊆ f.bodyOps := by
  intro o ho
  obtain ⟨leg, -, ho⟩ := mem_flatMap.mp ho
  rw [opsOf] at ho
  cases hblk : f.blocks[leg.1]? with
  | none =>
    rw [hblk] at ho
    cases ho
  | some blk =>
    rw [hblk] at ho
    exact mem_flatMap.mpr ⟨blk, mem_of_getElem? hblk, ho⟩

theorem mem_operations_of_body (h : o ∈ f.bodyOps) : o ∈ f.operations :=
  mem_operations_iff_body.mpr (Or.inl h)

/-- New values are not used by the operations that stay. -/
theorem not_returns_new (ho : o ∈ f.operations) (truth : Value → Bool) :
    o.returns truth (f.nextValue + 1) = false := by
  by_contra hret
  have hlt := lt_nextValue (mem_values_of_uses ho (mem_uses_of_returns
    (Bool.not_eq_false _ ▸ hret)))
  exact Nat.not_lt_of_le (Nat.le_succ _) hlt

theorem countP_renameOp (ho : o ∈ f.operations) (truth : Value → Bool) :
    (f.renameOp next init o).countP (returns truth (f.nextValue + 1)) =
      if o = .plain init then 1 else 0 := by
  rw [renameOp]
  split_ifs with hinit huser
  · simp [forward, returns]
  · rfl
  · simp [not_returns_new ho truth]

/-- The new event is returned once wherever the old one was initialised. -/
theorem timesReturned_renameInit (h : f.renameInit next init = some g) (w : List Leg)
    (truth : Value → Bool) :
    g.timesReturned w truth (f.nextValue + 1) = (f.opsAlong w).count (.plain init) := by
  rw [timesReturned, opsAlong_renameInit h]
  have hsub : ∀ o ∈ f.opsAlong w, o ∈ f.operations :=
    fun o ho => mem_operations_of_body (opsAlong_subset w ho)
  generalize f.opsAlong w = along at hsub ⊢
  induction along with
  | nil => rfl
  | cons o ops ih =>
    rw [flatMap_cons, countP_append, countP_renameOp (hsub o mem_cons_self),
      ih fun p hp => hsub p (mem_cons_of_mem _ hp), count_cons, Nat.add_comm]
    simp only [beq_iff_eq]

section NewEvent

variable (h : f.renameInit next init = some g) (hinit : .plain init ∈ f.bodyOps)

include h hinit

theorem forward_subset : f.forward next init ⊆ g.bodyOps := by
  intro o ho
  rw [bodyOps_renameInit h, mem_flatMap]
  exact ⟨_, hinit, mem_renameOp.mpr (Or.inl ⟨rfl, ho⟩)⟩

theorem nextValue_le_renameInit : f.nextValue ≤ g.nextValue := by
  have hnew : f.nextValue + 1 ∈ g.values := by
    have hmem := forward_subset h hinit (mem_cons_of_mem _ mem_cons_self)
    exact mem_values_of_binds (mem_operations_of_body hmem) (mem_singleton_self _)
  exact (Nat.le_succ _).trans (lt_nextValue hnew).le

omit hinit in
/-- The constant is the only operation that defines the new atom. -/
theorem eq_of_nextValue_mem_results {r : Value × Ty} (ho : o ∈ g.bodyOps) (hr : r ∈ o.results)
    (hv : r.1 = f.nextValue) :
    o = .plain ⟨f.nextId, .constant next.atom, [], [(f.nextValue, .atom)]⟩ := by
  rw [bodyOps_renameInit h] at ho
  obtain ⟨p, hp, ho⟩ := mem_flatMap.mp ho
  rcases mem_renameOp.mp ho with ⟨-, ho⟩ | ⟨-, -, rfl⟩
  · simp only [forward, mem_cons, not_mem_nil, or_false] at ho
    rcases ho with rfl | rfl | rfl
    · rfl
    · obtain rfl := mem_singleton.mp hr
      exact absurd hv (Nat.succ_ne_self _)
    · cases hr
  · have hbinds : r.1 ∈ o.binds := by
      cases o with
      | plain op => exact mem_map_of_mem hr
      | guard => cases hr
    have hlt := lt_nextValue (mem_values_of_binds (mem_operations_of_body hp) hbinds)
    exact absurd (hv ▸ hlt) (lt_irrefl _)

theorem definingOp_renameInit : g.definingOp f.nextValue =
    some (.plain ⟨f.nextId, .constant next.atom, [], [(f.nextValue, .atom)]⟩) := by
  have hconst := forward_subset h hinit mem_cons_self
  have hsome : (g.definingOp f.nextValue).isSome := by
    rw [definingOp, find?_isSome]
    exact ⟨_, mem_operations_of_body hconst, by simp⟩
  obtain ⟨o, ho⟩ := Option.isSome_iff_exists.mp hsome
  obtain ⟨hmem, hv⟩ := mem_of_definingOp ho
  obtain ⟨r, hr, hv⟩ := mem_map.mp hv
  rw [ho]
  rcases mem_operations_iff_body.mp hmem with hbody | ⟨blk, -, rfl⟩
  · rw [eq_of_nextValue_mem_results h hbody hr hv]
  · cases hterm : blk.term <;> rw [hterm] at hr <;> cases hr

theorem typeOf_renameInit : g.typeOf f.nextValue = some .atom := by
  have hconst := forward_subset h hinit mem_cons_self
  obtain ⟨blk, hblk, hop⟩ := mem_flatMap.mp hconst
  have hsome : ((g.blocks.flatMap fun blk => blk.args ++ blk.ops.flatMap results).find?
      fun r => r.1 = f.nextValue).isSome := by
    rw [find?_isSome]
    refine ⟨(f.nextValue, .atom), mem_flatMap.mpr ⟨blk, hblk, ?_⟩, by simp⟩
    exact mem_append_right _ (mem_flatMap.mpr ⟨_, hop, mem_singleton_self _⟩)
  obtain ⟨r, hr⟩ := Option.isSome_iff_exists.mp hsome
  have hv : r.1 = f.nextValue := by simpa using find?_some hr
  rw [typeOf, hr, Option.map_some]
  obtain ⟨blk, hblk, hmem⟩ := mem_flatMap.mp (mem_of_find?_eq_some hr)
  rcases mem_append.mp hmem with harg | hres
  · rw [(renameInit_eq_some h).2.2] at hblk
    obtain ⟨blk', hblk', rfl⟩ := mem_map.mp hblk
    have hlt : r.1 < f.nextValue := lt_nextValue (mem_append_left _
      (mem_flatMap.mpr ⟨blk', hblk', mem_map_of_mem harg⟩))
    exact absurd (hv ▸ hlt) (lt_irrefl _)
  · obtain ⟨o, ho, hres⟩ := mem_flatMap.mp hres
    obtain rfl := eq_of_nextValue_mem_results h (mem_flatMap.mpr ⟨blk, hblk, ho⟩) hres hv
    rw [mem_singleton.mp hres]

/-- `HandlerFullName` of the new event. -/
theorem fullName_renameInit (operands : List Value) :
    g.fullName next.event (f.nextValue :: operands) = some next := by
  rw [fullName, definingOp_renameInit h hinit]
  simp [kind?, typeOf_renameInit h hinit]

end NewEvent

end FuncOp

end Alkali
