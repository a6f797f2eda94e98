import Alkali.Dependency.Components
import Alkali.Dependency.Handlers

/-!
# Events and their handlers

The passes that follow a value from an event to its handler look the handler up with the
`InitOp` of the event. A returned event is an edge of the handler graph, and the handlers
of the module are the vertices of the graph.
-/

namespace Alkali

open Fallible HandlerGraph

namespace FuncOp

variable (f : FuncOp)

/-- The `InitOp`s of events, those inside of guards included. -/
def eventInits : List PlainOp :=
  f.walk.filterMap fun o =>
    match o with
    | .plain op => if o.isEventInit then some op else none
    | .guard _ _ _ _ => none

theorem mem_eventInits_of_operations {f : FuncOp} {op : PlainOp}
    (hop : .plain op ∈ f.operations) (hev : (Operation.plain op).isEventInit) :
    op ∈ f.eventInits :=
  List.mem_filterMap.mpr ⟨.plain op, mem_walk.mpr (Or.inl hop), by simp [hev]⟩

/-- The event that an `InitOp` makes is returned. -/
def Returned (op : PlainOp) : Prop :=
  ∃ ret ∈ f.returnOps, ret.operands.head?.bind f.definingOp = some (.plain op)

end FuncOp

/-- A function is found by its identity. -/
theorem ModuleFunc.find?_id {moduleOp : List ModuleFunc}
    (hids : (moduleOp.map ModuleFunc.id).Nodup) {f : ModuleFunc} (hf : f ∈ moduleOp) :
    moduleOp.find? (·.id = f.id) = some f := by
  obtain ⟨g, hg⟩ := Option.isSome_iff_exists.mp
    (List.find?_isSome.mpr ⟨f, hf, by simp⟩ : (moduleOp.find? (·.id = f.id)).isSome)
  have hid : g.id = f.id := by simpa using List.find?_some hg
  rw [hg, List.inj_on_of_nodup_map hids (List.mem_of_find?_eq_some hg) hf hid]

namespace HandlerDependencyAnalysis

/-- `lookupHandler` of an `InitOp`. -/
def lookupInit (moduleOp : List ModuleFunc) (f : FuncOp) (op : PlainOp) : Option ModuleFunc :=
  match op.kind with
  | .init (.struct true _ event) =>
    (f.fullName event op.operands).bind (lookupHandler (handlersOf moduleOp))
  | _ => none

/-- `hasPredecessor`. -/
def hasPredecessor (d : Dependencies) (f : ModuleFunc) : Bool :=
  d.graph.entries.any fun e => f.id ∈ e.2

section Module

variable {moduleOp : List ModuleFunc}
variable {op : PlainOp} {g f : ModuleFunc} {d : Dependencies}

theorem exists_kind_of_lookupInit {f : FuncOp} (h : lookupInit moduleOp f op = some g) :
    ∃ tys event name, op.kind = .init (.struct true tys event) ∧
      f.fullName event op.operands = some name ∧
      lookupHandler (handlersOf moduleOp) name = some g := by
  rw [lookupInit] at h
  split at h
  · rename_i tys event hkind
    obtain ⟨name, hname, hg⟩ := Option.bind_eq_some_iff.mp h
    exact ⟨tys, event, name, hkind, hname, hg⟩
  · cases h

theorem mem_eventInits_of_returned {f : FuncOp} (hret : f.Returned op) {tys : List Ty}
    {event : String} (hkind : op.kind = .init (.struct true tys event)) : op ∈ f.eventInits := by
  obtain ⟨ret, -, hdef⟩ := hret
  obtain ⟨v, -, hdef⟩ := Option.bind_eq_some_iff.mp hdef
  exact FuncOp.mem_eventInits_of_operations (FuncOp.mem_of_definingOp hdef).1
    (by simp [Operation.isEventInit, Operation.kind?, hkind])

theorem mem_of_lookupInit {f : FuncOp} (h : lookupInit moduleOp f op = some g) :
    g ∈ handlersOf moduleOp := by
  obtain ⟨tys, event, name, -, -, hg⟩ := exists_kind_of_lookupInit h
  exact mem_of_lookupHandler hg

theorem sends_of_returned (hnames : NamesDefined moduleOp) (hf : f ∈ handlersOf moduleOp)
    (hreturned : f.func.Returned op) (h : lookupInit moduleOp f.func op = some g) :
    Sends moduleOp f g := by
  obtain ⟨tys, event, name, hkind, hname, hg⟩ := exists_kind_of_lookupInit h
  obtain ⟨ret, hret, hdef⟩ := hreturned
  obtain ⟨names, hnames⟩ := Option.isSome_iff_exists.mp (hnames f hf).2
  refine ⟨name, ⟨names, hnames, (mem_mapM_iff hnames).mpr ⟨ret, hret, ?_⟩⟩, hg⟩
  rw [FuncOp.returnName, hdef]
  simp only [hkind, hname]

/-- A name that a handler returns is that of an event which it makes. -/
theorem exists_init_of_returns (moduleOp : List ModuleFunc) {name : HandlerFullName}
    (h : Returns f name) :
    ∃ op, .plain op ∈ f.func.operations ∧ op ∈ f.func.eventInits ∧
      lookupInit moduleOp f.func op = lookupHandler (handlersOf moduleOp) name := by
  obtain ⟨names, hnames, hmem⟩ := h
  obtain ⟨ret, hret, hname⟩ := (mem_mapM_iff hnames).mp hmem
  rw [FuncOp.returnName] at hname
  split at hname
  · rename_i init hdef
    split at hname
    · rename_i tys event hkind
      obtain ⟨v, -, hop⟩ := Option.bind_eq_some_iff.mp hdef
      refine ⟨init, (FuncOp.mem_of_definingOp hop).1,
        mem_eventInits_of_returned ⟨ret, hret, hdef⟩ hkind, ?_⟩
      rw [lookupInit]
      simp only [hkind, hname, Option.bind_some]
    · cases hname
  · cases hname

/-- If every event that a handler makes has a handler, so has every one that it returns. -/
theorem answered_of_handled
    (h : ¬ f.isExtern → ∀ op ∈ f.func.eventInits, (lookupInit moduleOp f.func op).isSome) :
    Answered (handlersOf moduleOp) f := by
  intro hfor name hrets
  obtain ⟨op, -, hop, hlk⟩ := exists_init_of_returns moduleOp hrets
  exact hlk ▸ h hfor op hop

section

variable (hids : (moduleOp.map ModuleFunc.id).Nodup) (hnames : NamesDefined moduleOp)
  (hd : analyze moduleOp = .ok d)
include hids hnames hd

/-- The handlers that are no externs have an entry or an edge. -/
theorem mem_keys_of_handler (hf : f ∈ handlersOf moduleOp) (hfor : ¬ f.isExtern) :
    f.id ∈ (undirectedGraph d.graph).keys := by
  refine mem_keys_undirectedGraph.mpr (Or.inl ?_)
  by_contra hkey
  have hfind := (find_analyze hids hnames hd).mpr ⟨f, hf, hfor, rfl, rfl⟩
  rw [OrderedMap.find_eq_none_iff.mpr hkey] at hfind
  cases hfind

end

end Module

end HandlerDependencyAnalysis

end Alkali
