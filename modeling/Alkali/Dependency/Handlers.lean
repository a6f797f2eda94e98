import Alkali.Dependency.Coloring
import Alkali.Library.Fallible
import Alkali.Lowering.Backend
import Alkali.Mapping.Module

/-!
# The handler graph

`HandlerDependencyAnalysis` collects the events that each handler returns and looks for
their handlers: one with the same event and atom, or one with the same event and no atom.
An event that an extern handles leads further to what the extern returns. The edges are
built in one pass over the functions of the module.
-/

namespace Alkali

open Fallible List HandlerGraph

namespace FuncOp

variable (f : FuncOp)

/-- The `ReturnOp`s with one operand, those inside of guards included. -/
def returnOps : List PlainOp :=
  f.walk.filterMap fun o =>
    match o with
    | .plain op => if op.kind = .ret ∧ op.operands.length = 1 then some op else none
    | .guard _ _ _ _ => none

/-- `HandlerFullName` of a `ReturnOp`: the code asserts that an `InitOp` of an event
defines its operand. -/
def returnName (op : PlainOp) : Option HandlerFullName :=
  match (op.operands.head?.bind f.definingOp) with
  | some (.plain init) =>
    match init.kind with
    | .init (.struct true _ event) => f.fullName event init.operands
    | _ => none
  | _ => none

end FuncOp

namespace HandlerDependencyAnalysis

/-- Why the analysis does not return. -/
inductive Failure
  | assertion
  | missingHandler
  deriving DecidableEq, Repr

/-- `HandlerFullName` of a function. -/
def handlerName (f : ModuleFunc) : Option HandlerFullName :=
  f.event.map fun event => ⟨event, f.atom.getD ""⟩

/-- The names of the events that a function returns. -/
def returned (f : ModuleFunc) : Option (List HandlerFullName) :=
  f.func.returnOps.mapM f.func.returnName

/-- `handlersMap.find`: of several functions with one name the map has the first. -/
def findHandler (handlers : List ModuleFunc) (name : HandlerFullName) : Option ModuleFunc :=
  handlers.find? fun f => handlerName f = some name

/-- An exact match, or a handler of the event without an atom. -/
def lookupHandler (handlers : List ModuleFunc) (name : HandlerFullName) : Option ModuleFunc :=
  (findHandler handlers name).or (findHandler handlers ⟨name.event, ""⟩)

/-- What the analysis has collected so far. The attribute `extern_forward` is a list of
functions. -/
structure Dependencies where
  graph : OrderedMap FuncId (List FuncId)
  eventDeps : List (String × String)
  externForwards : List (String × List HandlerFullName)
  externForward : List FuncId

variable (handlers : List ModuleFunc) (externForwards : List (String × List HandlerFullName))
  (target : HandlerFullName)

/-- The edges for one event that a handler returns. -/
def targetsOf : Except Failure (List FuncId) :=
  match findHandler handlers target with
  | some g => .ok [g.id]
  | none =>
    match findHandler handlers ⟨target.event, ""⟩ with
    | none => .error .missingHandler
    | some g =>
      if g.isExtern then
        -- the name of the forwarded event is printed, but `target` is looked up again
        .ok (g.id :: ((externForwards.lookup target.event).getD []).flatMap fun _ =>
          ((findHandler handlers target).map ModuleFunc.id).toList)
      else .ok [g.id]

def edgesOf (externForwards : List (String × List HandlerFullName)) :
    List HandlerFullName → Except Failure (List FuncId)
  | [] => .ok []
  | target :: rest => do
    let ids ← targetsOf handlers externForwards target
    let ids' ← edgesOf externForwards rest
    .ok (ids ++ ids')

variable (d : Dependencies)

/-- One iteration of the loop over the handlers. -/
def addHandler (f : ModuleFunc) : Except Failure Dependencies :=
  match handlerName f, returned f with
  | some name, some names =>
    if f.isExtern then
      .ok { d with
        externForwards := d.externForwards ++ [(name.event, names)]
        externForward := d.externForward ++ (if names = [] then [] else [f.id]) ++
          names.filterMap fun target => (lookupHandler handlers target).map ModuleFunc.id }
    else do
      let edges ← edgesOf handlers d.externForwards names
      .ok { d with
        eventDeps := d.eventDeps ++ names.map fun target => (name.event, target.event)
        graph := d.graph.insertOrAssign f.id edges }
  | _, _ => .error .assertion

def addHandlers : List ModuleFunc → Dependencies → Except Failure Dependencies
  | [], d => .ok d
  | f :: fs, d => do
    let d ← addHandler handlers d f
    addHandlers fs d

variable (moduleOp : List ModuleFunc)

/-- The handlers of a module, externs included. -/
def handlersOf : List ModuleFunc :=
  moduleOp.filter fun f => f.type = .handler

/-- The analysis of a module. The map of the handlers is filled before the edges are
built. -/
def analyze : Except Failure Dependencies :=
  let funcOps := handlersOf moduleOp
  if funcOps.all fun f => (handlerName f).isSome then
    addHandlers funcOps funcOps ⟨.empty, [], [], []⟩
  else .error .assertion

/-- What the code asserts of the handlers of a module: each has an event, and returns
events. -/
def NamesDefined : Prop :=
  ∀ f ∈ handlersOf moduleOp, (handlerName f).isSome ∧ (returned f).isSome

/-- The events that a handler returns. -/
def Returns (f : ModuleFunc) (name : HandlerFullName) : Prop :=
  ∃ names, returned f = some names ∧ name ∈ names

/-- A forwarded event keeps the atom of the event that the extern has handled. -/
def forwardName (target forwarded : HandlerFullName) : HandlerFullName :=
  ⟨forwarded.event, target.atom⟩

/-- The handler `f` returns an event that an extern handles, and `g` handles what the
extern forwards. -/
def Forwards (f g : ModuleFunc) : Prop :=
  ∃ target x forwarded, Returns f target ∧
    lookupHandler (handlersOf moduleOp) target = some x ∧ x.isExtern ∧ Returns x forwarded ∧
    lookupHandler (handlersOf moduleOp) (forwardName target forwarded) = some g

/-- The handler `f` returns an event that `g` handles. -/
def Sends (f g : ModuleFunc) : Prop :=
  ∃ target, Returns f target ∧ lookupHandler (handlersOf moduleOp) target = some g

/-- The graph has an edge for every event that a handler returns and for every event
that is forwarded to a handler in answer. -/
structure Complete (graph : OrderedMap FuncId (List FuncId)) : Prop where
  handled : ∀ f ∈ handlersOf moduleOp, ¬ f.isExtern → ∀ g, Sends moduleOp f g →
    g.id ∈ targets graph f.id
  forwarded : ∀ f ∈ handlersOf moduleOp, ¬ f.isExtern → ∀ g, Forwards moduleOp f g →
    g.id ∈ targets graph f.id

/-! ## The edges -/

variable {handlers}

theorem targetsOf_eq :
    targetsOf handlers externForwards target = match lookupHandler handlers target with
      | some g => .ok [g.id]
      | none => .error .missingHandler := by
  rw [targetsOf, lookupHandler]
  cases hexact : findHandler handlers target with
  | some g => rfl
  | none =>
    cases hgeneral : findHandler handlers ⟨target.event, ""⟩ with
    | none => rfl
    | some g => simp

variable {ids : List FuncId} {fs : List ModuleFunc}

theorem targetsOf_eq_ok {externForwards : List (String × List HandlerFullName)}
    {target : HandlerFullName} :
    targetsOf handlers externForwards target = .ok ids ↔
      ∃ g, lookupHandler handlers target = some g ∧ ids = [g.id] := by
  rw [targetsOf_eq]
  cases lookupHandler handlers target with
  | none => simp
  | some g => simp [eq_comm]

/-- The edges are found exactly if every event has a handler. -/
theorem edgesOf_eq_ok {externForwards : List (String × List HandlerFullName)}
    {names : List HandlerFullName} :
    edgesOf handlers externForwards names = .ok ids ↔
      (∀ name ∈ names, (lookupHandler handlers name).isSome) ∧
        ids = names.filterMap fun name => (lookupHandler handlers name).map ModuleFunc.id := by
  induction names generalizing ids with
  | nil =>
    rw [edgesOf, Except.ok.injEq]
    exact ⟨fun h => ⟨fun name hname => (by cases hname), h.symm⟩, fun h => h.2.symm⟩
  | cons name names ih =>
    simp only [edgesOf, bind_eq_ok, targetsOf_eq_ok, ih, forall_mem_cons]
    constructor
    · rintro ⟨_, ⟨g, hg, rfl⟩, _, ⟨hall, rfl⟩, hids⟩
      refine ⟨⟨by simp [hg], hall⟩, ?_⟩
      rw [filterMap_cons, hg]
      exact (Except.ok.inj hids).symm
    · rintro ⟨⟨hname, hall⟩, rfl⟩
      obtain ⟨g, hg⟩ := Option.isSome_iff_exists.mp hname
      refine ⟨_, ⟨g, hg, rfl⟩, _, ⟨hall, rfl⟩, ?_⟩
      rw [filterMap_cons, hg]
      rfl

/-- The edges of a handler. -/
def edges (handlers : List ModuleFunc) (f : ModuleFunc) : List FuncId :=
  ((returned f).getD []).filterMap fun name => (lookupHandler handlers name).map ModuleFunc.id

/-- Every event that a handler returns has a handler; an extern need not. -/
def Answered (handlers : List ModuleFunc) (f : ModuleFunc) : Prop :=
  ¬ f.isExtern → ∀ name, Returns f name → (lookupHandler handlers name).isSome

variable {f : ModuleFunc}

/-- What one iteration does to the graph. -/
theorem addHandler_eq_ok {d d' : Dependencies} (h : addHandler handlers d f = .ok d') :
    Answered handlers f ∧ d'.graph = if f.isExtern then d.graph
        else d.graph.insertOrAssign f.id (edges handlers f) := by
  rw [addHandler] at h
  split at h
  · rename_i name names hname hret
    by_cases hfor : f.isExtern
    · rw [if_pos hfor] at h
      cases h
      exact ⟨fun hnot => absurd hfor hnot, by simp [hfor]⟩
    · rw [if_neg hfor] at h
      obtain ⟨ids, hids, h⟩ := bind_eq_ok.mp h
      obtain ⟨hall, rfl⟩ := edgesOf_eq_ok.mp hids
      cases h
      refine ⟨?_, by simp [hfor, edges, hret]⟩
      rintro - name ⟨names', hnames', hmem⟩
      rw [hret] at hnames'
      cases hnames'
      exact hall name hmem
  · cases h

theorem exists_addHandler (hname : (handlerName f).isSome) (hret : (returned f).isSome)
    (h : Answered handlers f) :
    ∃ d', addHandler handlers d f = .ok d' := by
  obtain ⟨name, hname⟩ := Option.isSome_iff_exists.mp hname
  obtain ⟨names, hnames⟩ := Option.isSome_iff_exists.mp hret
  rw [addHandler, hname, hnames]
  by_cases hfor : f.isExtern
  · simp only [hfor, if_true]
    exact ⟨_, rfl⟩
  · have hedges : edgesOf handlers d.externForwards names = .ok _ := edgesOf_eq_ok.mpr
      ⟨fun name hmem => h hfor name ⟨names, hnames, hmem⟩, rfl⟩
    simp only [hfor, hedges]
    exact ⟨_, rfl⟩

/-! ## The loop over the functions -/

theorem addHandlers_eq_ok {d d' : Dependencies} (h : addHandlers handlers fs d = .ok d')
    (hids : (fs.map ModuleFunc.id).Nodup) :
    (∀ f ∈ fs, Answered handlers f) ∧
      (∀ f ∈ fs, ¬ f.isExtern → d'.graph.find f.id = some (edges handlers f)) ∧
      ∀ i, (∀ f ∈ fs, ¬ f.isExtern → f.id ≠ i) → d'.graph.find i = d.graph.find i := by
  induction fs generalizing d with
  | nil =>
    cases h
    exact ⟨fun f hf => (by cases hf), fun f hf => (by cases hf), fun _ _ => rfl⟩
  | cons f fs ih =>
    obtain ⟨d₁, hd₁, h⟩ := bind_eq_ok.mp h
    obtain ⟨hfresh, hids⟩ := nodup_cons.mp hids
    obtain ⟨hanswered, hgraph⟩ := addHandler_eq_ok hd₁
    obtain ⟨hall, hedges, hkeep⟩ := ih h hids
    refine ⟨forall_mem_cons.mpr ⟨hanswered, hall⟩,
      forall_mem_cons.mpr ⟨fun hfor => ?_, hedges⟩, fun i hi => ?_⟩
    · have hother : ∀ f' ∈ fs, ¬ f'.isExtern → f'.id ≠ f.id := fun f' hf' _ heq =>
        hfresh (heq ▸ mem_map_of_mem hf')
      rw [hkeep f.id hother, hgraph, if_neg hfor, OrderedMap.find_insertOrAssign, if_pos rfl]
    · obtain ⟨hne, hi⟩ := forall_mem_cons.mp hi
      rw [hkeep i hi, hgraph]
      split_ifs with hfor
      · rfl
      · rw [OrderedMap.find_insertOrAssign, if_neg (hne hfor).symm]

theorem exists_addHandlers (hnames : ∀ f ∈ fs, (handlerName f).isSome ∧ (returned f).isSome)
    (h : ∀ f ∈ fs, Answered handlers f) : ∃ d', addHandlers handlers fs d = .ok d' := by
  induction fs generalizing d with
  | nil => exact ⟨d, rfl⟩
  | cons f fs ih =>
    obtain ⟨hf, hnames⟩ := forall_mem_cons.mp hnames
    obtain ⟨hanswered, h⟩ := forall_mem_cons.mp h
    obtain ⟨d₁, hd₁⟩ := exists_addHandler d hf.1 hf.2 hanswered
    obtain ⟨d₂, hd₂⟩ := ih d₁ hnames h
    exact ⟨d₂, bind_eq_ok.mpr ⟨d₁, hd₁, hd₂⟩⟩

theorem mem_edges {i : FuncId} {moduleOp : List ModuleFunc} :
    i ∈ edges (handlersOf moduleOp) f ↔ ∃ g, Sends moduleOp f g ∧ g.id = i := by
  simp only [edges, Sends, Returns, mem_filterMap, Option.map_eq_some_iff]
  constructor
  · rintro ⟨name, hname, g, hg, rfl⟩
    cases hret : returned f with
    | none => simp [hret] at hname
    | some names =>
      rw [hret] at hname
      exact ⟨g, ⟨name, ⟨names, rfl, hname⟩, hg⟩, rfl⟩
  · rintro ⟨g, ⟨name, ⟨names, hret, hname⟩, hg⟩, rfl⟩
    exact ⟨name, by rw [hret]; exact hname, g, hg, rfl⟩

theorem mem_of_lookupHandler {name : HandlerFullName} {g : ModuleFunc}
    (h : lookupHandler handlers name = some g) : g ∈ handlers := by
  rw [lookupHandler, Option.or_eq_some_iff] at h
  rcases h with h | ⟨-, h⟩
  · exact mem_of_find?_eq_some h
  · exact mem_of_find?_eq_some h

section Module

variable {moduleOp : List ModuleFunc}

theorem analyze_eq (hnames : NamesDefined moduleOp) : analyze moduleOp =
    addHandlers (handlersOf moduleOp) (handlersOf moduleOp) ⟨.empty, [], [], []⟩ := by
  rw [analyze, if_pos (all_eq_true.mpr fun f hf => (hnames f hf).1)]

theorem nodup_handlersOf (hids : (moduleOp.map ModuleFunc.id).Nodup) :
    ((handlersOf moduleOp).map ModuleFunc.id).Nodup :=
  hids.sublist (filter_sublist.map _)

variable {d : Dependencies}

section

variable (hids : (moduleOp.map ModuleFunc.id).Nodup) (hnames : NamesDefined moduleOp)
  (hd : analyze moduleOp = .ok d)
include hids hnames hd

/-- The graph has an entry for every handler that is no extern, and no other entries. -/
theorem find_analyze {i : FuncId} {ids : List FuncId} : d.graph.find i = some ids ↔
      ∃ f ∈ handlersOf moduleOp, ¬ f.isExtern ∧ f.id = i ∧ ids = edges (handlersOf moduleOp) f := by
  obtain ⟨-, hedges, hkeep⟩ := addHandlers_eq_ok (analyze_eq hnames ▸ hd) (nodup_handlersOf hids)
  constructor
  · intro hfind
    by_contra hnone
    rw [hkeep i] at hfind
    · cases hfind
    · rintro f hf hfor rfl
      rw [hedges f hf hfor] at hfind
      exact hnone ⟨f, hf, hfor, rfl, (Option.some.inj hfind).symm⟩
  · rintro ⟨f, hf, hfor, rfl, rfl⟩
    exact hedges f hf hfor

/-- The edges of the graph are the events that the handlers return. -/
theorem mem_targets_analyze {i j : FuncId} : j ∈ targets d.graph i ↔
      ∃ f ∈ handlersOf moduleOp, ¬ f.isExtern ∧ f.id = i ∧ ∃ g, Sends moduleOp f g ∧ g.id = j := by
  rw [targets]
  constructor
  · intro hj
    cases hfind : d.graph.find i with
    | none => simp [hfind] at hj
    | some ids =>
      obtain ⟨f, hf, hfor, rfl, rfl⟩ := (find_analyze hids hnames hd).mp hfind
      rw [hfind, Option.getD_some] at hj
      exact ⟨f, hf, hfor, rfl, mem_edges.mp hj⟩
  · rintro ⟨f, hf, hfor, rfl, hsends⟩
    rw [(find_analyze hids hnames hd).mpr ⟨f, hf, hfor, rfl, rfl⟩, Option.getD_some]
    exact mem_edges.mpr hsends

/-- A handler and its edges, found by their identities. -/
theorem sends_iff_mem_targets {f g : ModuleFunc}
    (hf : f ∈ handlersOf moduleOp) (hfor : ¬ f.isExtern) (hg : g ∈ handlersOf moduleOp) :
    g.id ∈ targets d.graph f.id ↔ Sends moduleOp f g := by
  have hids' := nodup_handlersOf hids
  rw [mem_targets_analyze hids hnames hd]
  constructor
  · rintro ⟨f', hf', -, hidf, g', hsends, hidg⟩
    obtain ⟨name, -, hlk⟩ := id hsends
    rwa [← inj_on_of_nodup_map hids' hf' hf hidf,
      ← inj_on_of_nodup_map hids' (mem_of_lookupHandler hlk) hg hidg]
  · exact fun hsends => ⟨f, hf, hfor, rfl, g, hsends, rfl⟩

end

theorem exists_analyze (hnames : NamesDefined moduleOp)
    (h : ∀ f ∈ handlersOf moduleOp, Answered (handlersOf moduleOp) f) :
    ∃ d, analyze moduleOp = .ok d :=
  analyze_eq hnames ▸ exists_addHandlers _ hnames h

end Module

/-- For every module and every order of its functions, the analysis returns a graph with
all edges exactly if every event that a handler returns has a handler, and no handler
depends on a forwarded event alone: it also returns an event that the handler of the
forwarded event handles. -/
theorem analyze_complete_iff (moduleOp : List ModuleFunc)
    (hids : (moduleOp.map ModuleFunc.id).Nodup) (hnames : NamesDefined moduleOp) :
    (∃ d, analyze moduleOp = .ok d ∧ Complete moduleOp d.graph) ↔
      ∀ f ∈ handlersOf moduleOp, ¬ f.isExtern →
        (∀ name, Returns f name → (lookupHandler (handlersOf moduleOp) name).isSome) ∧
        ∀ g, Forwards moduleOp f g → Sends moduleOp f g := by
  constructor
  · rintro ⟨d, hd, hcompl⟩ f hf hfor
    obtain ⟨hall, -, -⟩ := addHandlers_eq_ok (analyze_eq hnames ▸ hd) (nodup_handlersOf hids)
    refine ⟨hall f hf hfor, fun g hforwards => ?_⟩
    have hg : g ∈ handlersOf moduleOp := by
      obtain ⟨_, _, _, -, -, -, -, hlk⟩ := hforwards
      exact mem_of_lookupHandler hlk
    exact (sends_iff_mem_targets hids hnames hd hf hfor hg).mp
      (hcompl.forwarded f hf hfor g hforwards)
  · intro h
    obtain ⟨d, hd⟩ := exists_analyze hnames fun f hf hfor => (h f hf hfor).1
    have hsends : ∀ f ∈ handlersOf moduleOp, ¬ f.isExtern → ∀ g, Sends moduleOp f g →
        g.id ∈ targets d.graph f.id := by
      intro f hf hfor g hsends
      obtain ⟨_, -, hlk⟩ := id hsends
      exact (sends_iff_mem_targets hids hnames hd hf hfor (mem_of_lookupHandler hlk)).mpr
        hsends
    exact ⟨d, hd, hsends, fun f hf hfor g hforwards =>
      hsends f hf hfor g ((h f hf hfor).2 g hforwards)⟩

/-! ## Requests to an extern -/

/-- A handler that returns an event for each name. -/
def relay (id : FuncId) (event : String) (sent : List String) (isExtern : Bool) : ModuleFunc where
  id
  func := ⟨"__handler_" ++ event, [{
    args := [(0, .context)]
    ops := sent.zipIdx.flatMap fun p =>
      [.plain ⟨2 * p.2, .init (.struct true [.context] p.1), [0],
          [(p.2 + 1, .struct true [.context] p.1)]⟩,
        .plain ⟨2 * p.2 + 1, .ret, [p.2 + 1], []⟩]
    termId := 100
    term := .terminate }]⟩
  type := .handler
  isExtern
  event := some event
  atom := none
  generationIndex := none
  instances := none

/-- A handler that asks an extern and waits for nothing. -/
def askOnly : List ModuleFunc :=
    [relay 0 "NET_RECV" ["DMA_WRITE"] false, relay 1 "DMA_WRITE" [] true]

theorem analyze_complete_askOnly : ∃ d, analyze askOnly = .ok d ∧ Complete askOnly d.graph := by
  refine (analyze_complete_iff askOnly (by decide) (by unfold NamesDefined; decide +kernel)).mpr ?_
  have hret : ∀ f ∈ handlersOf askOnly, (returned f).all fun names =>
      names.all fun name => (lookupHandler (handlersOf askOnly) name).any fun x =>
        returned x = some [] := by decide +kernel
  intro f hf _
  have hf := hret f hf
  constructor
  · rintro name ⟨names, hnames, hmem⟩
    rw [hnames] at hf
    have hany := all_eq_true.mp hf name hmem
    cases hlk : lookupHandler (handlersOf askOnly) name with
    | none => simp [hlk] at hany
    | some x => rfl
  · rintro g ⟨target, x, forwarded, ⟨names, hnames, hmem⟩, hlk, -, ⟨names', hnames', hmem'⟩, -⟩
    rw [hnames] at hf
    have hany := all_eq_true.mp hf target hmem
    rw [hlk] at hany
    have hnil : returned x = some [] := by simpa using hany
    rw [hnames'] at hnil
    cases hnil
    cases hmem'

/-- A handler that asks an extern, whose answer goes to a third handler. -/
def askAnswer : List ModuleFunc :=
  [relay 1 "DMA_READ" ["DMA_DONE"] true, relay 0 "NET_RECV" ["DMA_READ"] false,
    relay 2 "DMA_DONE" [] false]

theorem forwards_askAnswer :
    Forwards askAnswer (relay 0 "NET_RECV" ["DMA_READ"] false) (relay 2 "DMA_DONE" [] false) :=
  ⟨⟨"DMA_READ", ""⟩, relay 1 "DMA_READ" ["DMA_DONE"] true, ⟨"DMA_DONE", ""⟩,
    ⟨[⟨"DMA_READ", ""⟩], by decide +kernel, by decide⟩, by decide +kernel, rfl,
    ⟨[⟨"DMA_DONE", ""⟩], by decide +kernel, by decide⟩, by decide +kernel⟩

/-- The answer of the extern gives no edge, and an event without a handler stops the
analysis. -/
theorem analyze_incomplete : (askAnswer.map ModuleFunc.id).Nodup ∧ NamesDefined askAnswer ∧
      (analyze askAnswer).map (fun d => targets d.graph 0) = .ok [1] ∧
      (¬ ∃ d, analyze askAnswer = .ok d ∧ Complete askAnswer d.graph) ∧
      (analyze [relay 0 "NET_RECV" ["NET_SEND"] false]).map (fun d => d.graph.entries) =
        .error .missingHandler := by
  have htgts : (analyze askAnswer).map (fun d => targets d.graph 0) = .ok [1] :=
    rfl
  refine ⟨by decide, by unfold NamesDefined; decide +kernel, htgts, ?_, rfl⟩
  rintro ⟨d, hd, hcompl⟩
  have hedge := hcompl.forwarded _ (by decide +kernel) (by decide) _ forwards_askAnswer
  rw [hd] at htgts
  have htgts : targets d.graph 0 = [1] := Except.ok.inj htgts
  simp [relay, htgts] at hedge

end HandlerDependencyAnalysis

end Alkali
