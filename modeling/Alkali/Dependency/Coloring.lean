import Alkali.Library.OrderedMap
import Alkali.Library.FuelLoop

/-!
# Components of the handler graph

`getConnectedComponents` colours the handlers in a breadth-first search along the edges
in both directions. A handler gets its colour when it is taken from the queue, so it can
be in the queue several times. The handlers are kept in a map that is ordered by their
addresses, an arbitrary order here.
-/

namespace Alkali.HandlerGraph

open List Function OrderedMap

variable {V : Type*} [LinearOrder V]

/-- `graph[handler]`: a handler without an entry has no edges. -/
def targets (graph : OrderedMap V (List V)) (handler : V) : List V :=
  (graph.find handler).getD []

/-- The edges in the order in which the loops come to them. -/
def edgeList (graph : OrderedMap V (List V)) : List (V × V) :=
  graph.entries.flatMap fun e => e.2.map fun target => (e.1, target)

/-- The number of edges to a handler, repeated edges included. -/
def inDegree (graph : OrderedMap V (List V)) : V → Int :=
  (edgeList graph).foldl (fun degree e => update degree e.2 (degree e.2 + 1)) fun _ => 0

/-- Add an edge back to its handler unless there is one. -/
def addBack (undirected : OrderedMap V (List V)) (handler target : V) : OrderedMap V (List V) :=
  let edges := targets undirected target
  undirected.insertOrAssign target (if handler ∈ edges then edges else edges ++ [handler])

def undirectedGraph (graph : OrderedMap V (List V)) : OrderedMap V (List V) :=
  (edgeList graph).foldl (fun undirected e => addBack undirected e.1 e.2) graph

/-- A subgraph and its handlers without incoming edges, in the order of the search. -/
structure Component (V : Type*) [LinearOrder V] where
  subGraph : OrderedMap V (List V)
  nodes : List V

open Component

/-- The state of the search. The newest component is the first. -/
structure Search (V : Type*) [LinearOrder V] where
  pending : List V
  color : V → Nat
  curColor : Nat
  worklist : List V
  components : List (Component V)

variable (graph : OrderedMap V (List V))

/-- Add a handler to a component. -/
def Component.visit (cur : V) (c : Component V) : Component V where
  subGraph := c.subGraph.insertOrAssign cur (targets graph cur)
  nodes := if inDegree graph cur = 0 then c.nodes ++ [cur] else c.nodes

/-- Take a handler from the queue, or go on to the next handler of the map. -/
def colorStep (s : Search V) : Option (Search V ⊕ Search V) :=
  match s.worklist with
  | cur :: rest =>
    let color := update s.color cur s.curColor
    some (.inr { s with
      color
      worklist := rest ++ (targets (undirectedGraph graph) cur).filter fun t => color t = 0
      components := s.components.modifyHead (visit graph cur) })
  | [] =>
    match s.pending with
    | [] => some (.inl s)
    | handler :: pending =>
      if s.color handler = 0 then
        some (.inr { s with
          pending
          curColor := s.curColor + 1
          worklist := [handler]
          components := ⟨.empty, []⟩ :: s.components })
      else some (.inr { s with pending })

def initialSearch : Search V where
  pending := (undirectedGraph graph).keys
  color _ := 0
  curColor := 0
  worklist := []
  components := []

/-- Two handlers are joined by an edge. -/
def Linked (a b : V) : Prop := b ∈ targets graph a ∨ a ∈ targets graph b

/-- The handlers that some edges connect, in either direction. -/
def Connected : V → V → Prop := Relation.ReflTransGen (Linked graph)

/-! ## The undirected graph -/

section Undirected

variable {graph}

theorem mem_edgeList {a b : V} : (a, b) ∈ edgeList graph ↔ b ∈ targets graph a := by
  simp only [edgeList, mem_flatMap, mem_map, Prod.mk.injEq]
  constructor
  · rintro ⟨⟨a, bs⟩, hmem, b, hb, rfl, rfl⟩
    rw [targets, find_eq_some_iff.mpr hmem]
    exact hb
  · intro hb
    rw [targets] at hb
    cases hfind : graph.find a with
    | none => simp [hfind] at hb
    | some bs =>
      rw [hfind] at hb
      exact ⟨(a, bs), find_eq_some_iff.mp hfind, b, hb, rfl, rfl⟩

variable {v w : V}

theorem mem_targets_addBack {und : OrderedMap V (List V)} {handler target : V} :
    w ∈ targets (addBack und handler target) v ↔
      w ∈ targets und v ∨ (v = target ∧ w = handler) := by
  rw [targets, addBack, find_insertOrAssign]
  by_cases hv : v = target
  · subst hv
    rw [if_pos rfl, Option.getD_some]
    split_ifs with hmem
    · refine ⟨Or.inl, ?_⟩
      rintro (hw | ⟨-, rfl⟩)
      · exact hw
      · exact hmem
    · simp
  · simp [hv, targets]

theorem mem_targets_foldl (edges : List (V × V)) (und : OrderedMap V (List V)) :
    w ∈ targets (edges.foldl (fun und e => addBack und e.1 e.2) und) v ↔
      w ∈ targets und v ∨ (w, v) ∈ edges := by
  induction edges generalizing und with
  | nil => simp
  | cons e edges ih =>
    rw [foldl_cons, ih, mem_targets_addBack, mem_cons, Prod.mk.injEq]
    tauto

theorem mem_keys_foldl (edges : List (V × V)) (und : OrderedMap V (List V)) :
    v ∈ (edges.foldl (fun und e => addBack und e.1 e.2) und).keys ↔
      v ∈ und.keys ∨ ∃ w, (w, v) ∈ edges := by
  induction edges generalizing und with
  | nil => simp
  | cons e edges ih =>
    obtain ⟨a, b⟩ := e
    rw [foldl_cons, ih, addBack, mem_keys_insertOrAssign]
    simp only [mem_cons, Prod.mk.injEq]
    constructor
    · rintro ((rfl | hv) | ⟨w, hw⟩)
      · exact Or.inr ⟨a, Or.inl ⟨rfl, rfl⟩⟩
      · exact Or.inl hv
      · exact Or.inr ⟨w, Or.inr hw⟩
    · rintro (hv | ⟨w, ⟨-, rfl⟩ | hw⟩)
      · exact Or.inl (Or.inr hv)
      · exact Or.inl (Or.inl rfl)
      · exact Or.inr ⟨w, hw⟩

theorem mem_targets_undirectedGraph : w ∈ targets (undirectedGraph graph) v ↔ Linked graph v w := by
  rw [undirectedGraph, mem_targets_foldl, mem_edgeList, Linked]

theorem mem_keys_undirectedGraph : v ∈ (undirectedGraph graph).keys ↔
    v ∈ graph.keys ∨ ∃ w, v ∈ targets graph w := by
  simp only [undirectedGraph, mem_keys_foldl, mem_edgeList]

theorem mem_keys_of_mem_targets (h : w ∈ targets graph v) : v ∈ graph.keys := by
  by_contra hv
  rw [targets, find_eq_none_iff.mpr hv] at h
  cases h

theorem Linked.symm (h : Linked graph v w) : Linked graph w v := Or.symm h

theorem Connected.symm (h : Connected graph v w) : Connected graph w v :=
  have : Std.Symm (Linked graph) := ⟨fun _ _ => Linked.symm⟩
  Relation.ReflTransGen.stdSymm.symm _ _ h

theorem Linked.mem_keys (h : Linked graph v w) : w ∈ (undirectedGraph graph).keys := by
  rw [mem_keys_undirectedGraph]
  rcases h with h | h
  · exact Or.inr ⟨v, h⟩
  · exact Or.inl (mem_keys_of_mem_targets h)

theorem Connected.mem_keys (h : Connected graph v w) (hv : v ∈ (undirectedGraph graph).keys) :
    w ∈ (undirectedGraph graph).keys := by
  rcases h.cases_tail with rfl | ⟨_, -, hlast⟩
  · exact hv
  · exact hlast.mem_keys

end Undirected

/-! ## The search -/

variable {graph} {s t : Search V}

theorem colorStep_cases (h : colorStep graph s = some (.inr t)) :
    (∃ cur rest, s.worklist = cur :: rest ∧ t = { s with
        color := update s.color cur s.curColor
        worklist := rest ++ (targets (undirectedGraph graph) cur).filter fun v =>
          update s.color cur s.curColor v = 0
        components := s.components.modifyHead (visit graph cur) }) ∨
      (s.worklist = [] ∧ ∃ handler pending, s.pending = handler :: pending ∧
        s.color handler = 0 ∧ t = { s with
          pending
          curColor := s.curColor + 1
          worklist := [handler]
          components := ⟨.empty, []⟩ :: s.components }) ∨
      (s.worklist = [] ∧ ∃ handler pending, s.pending = handler :: pending ∧
        s.color handler ≠ 0 ∧ t = { s with pending }) := by
  rw [colorStep] at h
  split at h
  · rename_i cur rest hwork
    exact Or.inl ⟨cur, rest, hwork, (Sum.inr.inj (Option.some.inj h)).symm⟩
  · rename_i hwork
    split at h
    · cases h
    · rename_i handler pending hpend
      split_ifs at h with hcolor
      · exact Or.inr (Or.inl ⟨hwork, handler, pending, hpend, hcolor,
          (Sum.inr.inj (Option.some.inj h)).symm⟩)
      · exact Or.inr (Or.inr ⟨hwork, handler, pending, hpend, hcolor,
          (Sum.inr.inj (Option.some.inj h)).symm⟩)

theorem colorStep_done (h : colorStep graph s = some (.inl t)) :
    t = s ∧ s.worklist = [] ∧ s.pending = [] := by
  rw [colorStep] at h
  split at h
  · cases h
  · rename_i hwork
    split at h
    · rename_i hpend
      exact ⟨(Sum.inl.inj (Option.some.inj h)).symm, hwork, hpend⟩
    · split_ifs at h
      · cases h
      · cases h

def Component.handlers (c : Component V) : List V := c.subGraph.keys

variable {c : Component V}
variable {cur v : V}

theorem Component.mem_handlers_visit :
    v ∈ (c.visit graph cur).handlers ↔ v = cur ∨ v ∈ c.handlers :=
  mem_keys_insertOrAssign

variable (graph)

/-- A component with its edges, and with the handlers that nothing leads to among its
initial handlers. -/
structure Component.Sound (c : Component V) : Prop where
  edges : ∀ v ∈ c.handlers, c.subGraph.find v = some (targets graph v)
  nodes : ∀ v, v ∈ c.nodes ↔ v ∈ c.handlers ∧ inDegree graph v = 0

/-- The handlers of a component are those connected to one of them. -/
def Component.Full (c : Component V) : Prop :=
  ∃ root ∈ (undirectedGraph graph).keys, ∀ v, v ∈ c.handlers ↔ Connected graph root v

/-- A component whose search is at work: neighbours of its handlers are in the queue. -/
structure Component.Growing (c : Component V) (worklist : List V) (root : V) : Prop where
  start : root ∈ c.handlers ∨ root ∈ worklist
  connected : ∀ v, v ∈ c.handlers ∨ v ∈ worklist → Connected graph root v
  linked : ∀ v ∈ c.handlers, ∀ w, Linked graph v w → w ∈ c.handlers ∨ w ∈ worklist

/-- The invariant of the search. -/
structure Search.Inv (s : Search V) : Prop where
  pending : ∀ v ∈ s.pending, v ∈ (undirectedGraph graph).keys
  covered : ∀ v ∈ (undirectedGraph graph).keys, v ∈ s.pending ∨ v ∈ s.worklist ∨ s.color v ≠ 0
  colored : ∀ v, s.color v ≠ 0 ↔ ∃ c ∈ s.components, v ∈ c.handlers
  sound : ∀ c ∈ s.components, c.Sound graph
  disjoint : s.components.Pairwise fun c d => ∀ v ∈ c.handlers, v ∉ d.handlers
  full : ∀ c ∈ s.components.tail, c.Full graph
  current : ∀ c ∈ s.components.head?, 0 < s.curColor ∧ ∃ root ∈ (undirectedGraph graph).keys,
    c.Growing graph s.worklist root ∧ ∀ d ∈ s.components.tail, root ∉ d.handlers
  idle : s.components = [] → s.worklist = []

variable {graph}

theorem Component.Full.mem_of_connected (h : c.Full graph) {w : V} (hv : v ∈ c.handlers)
    (hvw : Connected graph v w) : w ∈ c.handlers := by
  obtain ⟨root, -, hmem⟩ := h
  exact (hmem w).mpr (((hmem v).mp hv).trans hvw)

theorem Component.Growing.full {root : V} (hroot : root ∈ (undirectedGraph graph).keys)
    (h : c.Growing graph [] root) : c.Full graph := by
  refine ⟨root, hroot, fun v => ⟨fun hv => h.connected v (Or.inl hv), fun hv => ?_⟩⟩
  induction hv with
  | refl => exact h.start.resolve_right not_mem_nil
  | tail _ hlast ih => exact (h.linked _ ih _ hlast).resolve_right not_mem_nil

theorem Component.Sound.visit (h : c.Sound graph) (cur : V) : (c.visit graph cur).Sound graph := by
  constructor
  · intro v hv
    rw [Component.visit, find_insertOrAssign]
    split_ifs with heq
    · rw [heq]
    · exact h.edges v ((mem_handlers_visit.mp hv).resolve_left heq)
  · intro v
    have hnodes := h.nodes v
    rw [mem_handlers_visit]
    simp only [Component.visit]
    split_ifs with hzero
    · rw [mem_append, mem_singleton]
      constructor
      · rintro (hv | rfl)
        · exact ⟨Or.inr (hnodes.mp hv).1, (hnodes.mp hv).2⟩
        · exact ⟨Or.inl rfl, hzero⟩
      · rintro ⟨rfl | hv, hdeg⟩
        · exact Or.inr rfl
        · exact Or.inl (hnodes.mpr ⟨hv, hdeg⟩)
    · constructor
      · exact fun hv => ⟨Or.inr (hnodes.mp hv).1, (hnodes.mp hv).2⟩
      · rintro ⟨rfl | hv, hdeg⟩
        · exact absurd hdeg hzero
        · exact hnodes.mpr ⟨hv, hdeg⟩

theorem Search.Inv.initial : (initialSearch graph).Inv graph where
  pending _ hv := hv
  covered _ hv := Or.inl hv
  colored v := by simp [initialSearch]
  sound c hc := by cases hc
  disjoint := .nil
  full c hc := by cases hc
  current c hc := by cases hc
  idle _ := rfl

/-- A handler in the queue is in no component but the current one. -/
theorem Search.Inv.exists_current (hs : s.Inv graph) (hv : v ∈ s.worklist) :
    ∃ c done, s.components = c :: done ∧ s.curColor ≠ 0 ∧ v ∈ (undirectedGraph graph).keys ∧
      ∀ d ∈ done, v ∉ d.handlers := by
  obtain ⟨c, done, hcomps⟩ : ∃ c done, s.components = c :: done := by
    refine exists_cons_of_ne_nil fun hnil => ?_
    rw [hs.idle hnil] at hv
    cases hv
  obtain ⟨hcolor, root, hroot, hgrow, hother⟩ := hs.current c (by simp [hcomps])
  have hfull := hs.full
  rw [hcomps, tail_cons] at hother hfull
  have hconn := hgrow.connected v (Or.inr hv)
  exact ⟨c, done, hcomps, hcolor.ne', hconn.mem_keys hroot, fun d hd hmem =>
    hother d hd ((hfull d hd).mem_of_connected hmem hconn.symm)⟩

/-- The component that the search has finished. -/
theorem Search.Inv.full_of_idle (hs : s.Inv graph) (hwork : s.worklist = []) :
    ∀ c ∈ s.components, c.Full graph := by
  intro c hc
  cases hcomps : s.components with
  | nil =>
    rw [hcomps] at hc
    cases hc
  | cons d done =>
    rw [hcomps] at hc
    rcases mem_cons.mp hc with rfl | hc
    · obtain ⟨-, root, hroot, hgrow, -⟩ := hs.current c (by simp [hcomps])
      rw [hwork] at hgrow
      exact hgrow.full hroot
    · exact hs.full c (by simpa [hcomps] using hc)

theorem Component.Growing.visit {root : V} {rest new : List V}
    (h : c.Growing graph (cur :: rest) root) (hnew : ∀ v ∈ new, Linked graph cur v)
    (hcur : ∀ w, Linked graph cur w → w = cur ∨ w ∈ c.handlers ∨ w ∈ new) :
    (c.visit graph cur).Growing graph (rest ++ new) root := by
  have hmove : ∀ w, w ∈ c.handlers ∨ w ∈ cur :: rest →
      w ∈ (c.visit graph cur).handlers ∨ w ∈ rest ++ new := by
    rintro w (hw | hw)
    · exact Or.inl (mem_handlers_visit.mpr (Or.inr hw))
    · rcases mem_cons.mp hw with rfl | hw
      · exact Or.inl (mem_handlers_visit.mpr (Or.inl rfl))
      · exact Or.inr (mem_append_left _ hw)
  have hroot := h.connected cur (Or.inr mem_cons_self)
  refine ⟨hmove _ h.start, ?_, ?_⟩
  · rintro v (hv | hv)
    · rcases mem_handlers_visit.mp hv with rfl | hv
      · exact hroot
      · exact h.connected v (Or.inl hv)
    · rcases mem_append.mp hv with hv | hv
      · exact h.connected v (Or.inr (mem_cons_of_mem _ hv))
      · exact hroot.tail (hnew v hv)
  · intro v hv w hvw
    rcases mem_handlers_visit.mp hv with rfl | hv
    · rcases hcur w hvw with rfl | hw | hw
      · exact Or.inl hv
      · exact hmove w (Or.inl hw)
      · exact Or.inr (mem_append_right _ hw)
    · exact hmove w (h.linked v hv w hvw)

theorem Search.Inv.visit (hs : s.Inv graph) {rest : List V} (hwork : s.worklist = cur :: rest) :
    Search.Inv graph { s with
      color := update s.color cur s.curColor
      worklist := rest ++ (targets (undirectedGraph graph) cur).filter fun v =>
        update s.color cur s.curColor v = 0
      components := s.components.modifyHead (visit graph cur) } := by
  obtain ⟨c, done, hcomps, -, -, hdone⟩ := hs.exists_current (v := cur) (by simp [hwork])
  have hfull := hs.full
  have hdisj := hs.disjoint
  have hsound := hs.sound
  have hcolored := hs.colored
  obtain ⟨hcolor, root, hroot, hgrow, hother⟩ := hs.current c (by simp [hcomps])
  rw [hcomps] at hdisj hsound hcolored
  rw [hcomps, tail_cons] at hfull hother
  rw [hwork] at hgrow
  simp only [hcomps, modifyHead_cons]
  refine ⟨hs.pending, ?_, ?_, ?_, ?_, hfull, ?_, fun h => by cases h⟩
  · intro v hv
    by_cases heq : v = cur
    · subst heq
      exact Or.inr (Or.inr (by simpa using hcolor.ne'))
    · simp only [update_of_ne heq]
      rcases hs.covered v hv with hv | hv | hv
      · exact Or.inl hv
      · rw [hwork] at hv
        exact Or.inr (Or.inl (mem_append_left _ ((mem_cons.mp hv).resolve_left heq)))
      · exact Or.inr (Or.inr hv)
  · intro v
    by_cases heq : v = cur
    · subst heq
      simp [hcolor.ne', mem_handlers_visit]
    · simp only [update_of_ne heq, hcolored]
      simp [mem_handlers_visit, heq]
  · intro d hd
    rcases mem_cons.mp hd with rfl | hd
    · exact (hsound c mem_cons_self).visit cur
    · exact hsound d (mem_cons_of_mem _ hd)
  · obtain ⟨hhead, htail⟩ := pairwise_cons.mp hdisj
    refine pairwise_cons.mpr ⟨fun d hd v hv => ?_, htail⟩
    rcases mem_handlers_visit.mp hv with rfl | hv
    · exact hdone d hd
    · exact hhead d hd v hv
  · intro d hd
    obtain rfl := Option.some.inj hd
    refine ⟨hcolor, root, hroot, hgrow.visit (fun v hv => ?_) (fun w hw => ?_), hother⟩
    · exact mem_targets_undirectedGraph.mp (mem_filter.mp hv).1
    · by_cases heq : w = cur
      · exact Or.inl heq
      by_cases hzero : s.color w = 0
      · refine Or.inr (Or.inr (mem_filter.mpr ⟨mem_targets_undirectedGraph.mpr hw, ?_⟩))
        simpa [update_of_ne heq] using hzero
      · -- a neighbour with a colour is in this component, as the others are complete
        obtain ⟨d, hd, hmem⟩ := (hcolored w).mp hzero
        rcases mem_cons.mp hd with rfl | hd
        · exact Or.inr (Or.inl hmem)
        · exact absurd ((hfull d hd).mem_of_connected hmem (.single hw.symm)) (hdone d hd)

theorem Search.Inv.preserved (hs : s.Inv graph) (h : colorStep graph s = some (.inr t)) :
    t.Inv graph := by
  rcases colorStep_cases h with ⟨cur, rest, hwork, rfl⟩ |
    ⟨hwork, handler, pending, hpend, hcolor, rfl⟩ |
    ⟨hwork, handler, pending, hpend, hcolor, rfl⟩
  · exact hs.visit hwork
  · have hkeys := hs.pending
    rw [hpend] at hkeys
    have hfresh : ∀ d ∈ s.components, handler ∉ d.handlers := fun d hd hmem =>
      (hs.colored handler).mpr ⟨d, hd, hmem⟩ hcolor
    refine ⟨fun v hv => hkeys v (mem_cons_of_mem _ hv), fun v hv => ?_, fun v => ?_, ?_, ?_,
      hs.full_of_idle hwork, ?_, fun h => by cases h⟩
    · rcases hs.covered v hv with hv | hv | hv
      · rw [hpend] at hv
        rcases mem_cons.mp hv with rfl | hv
        · exact Or.inr (Or.inl (mem_singleton_self _))
        · exact Or.inl hv
      · rw [hwork] at hv
        cases hv
      · exact Or.inr (Or.inr hv)
    · simpa [handlers, OrderedMap.keys, OrderedMap.empty] using hs.colored v
    · intro c hc
      rcases mem_cons.mp hc with rfl | hc
      · exact ⟨fun v hv => (by cases hv), fun v => iff_of_false (by simp) fun hv => by cases hv.1⟩
      · exact hs.sound c hc
    · exact pairwise_cons.mpr ⟨fun d _ v hv => (by cases hv), hs.disjoint⟩
    · intro c hc
      obtain rfl := Option.some.inj hc
      refine ⟨Nat.succ_pos _, handler, hkeys handler mem_cons_self, ⟨?_, ?_, ?_⟩, hfresh⟩
      · exact Or.inr (mem_singleton_self _)
      · rintro v (hv | hv)
        · cases hv
        · exact mem_singleton.mp hv ▸ .refl
      · exact fun v hv => by cases hv
  · refine ⟨fun v hv => hs.pending v ?_, fun v hv => ?_, hs.colored, hs.sound, hs.disjoint,
      hs.full, hs.current, hs.idle⟩
    · rw [hpend]
      exact mem_cons_of_mem _ hv
    · rcases hs.covered v hv with hv | hv
      · rw [hpend] at hv
        rcases mem_cons.mp hv with rfl | hv
        · exact Or.inr (Or.inr hcolor)
        · exact Or.inl hv
      · exact Or.inr hv

theorem Search.Inv.reached (h : FuelLoop.Reaches (colorStep graph) (initialSearch graph) s) :
    s.Inv graph :=
  h.invariant .initial fun _ _ => Search.Inv.preserved

end Alkali.HandlerGraph
