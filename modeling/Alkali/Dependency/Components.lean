import Alkali.Dependency.Coloring
import Alkali.Library.TopologicalSort

/-!
# Order of the handlers of a component

The components that the search finds are sorted topologically. The sort starts with the
handlers without predecessors in the order in which the search took them from its queue,
as often as it did so.
-/

namespace Alkali.HandlerGraph

open List Function FuelLoop TopologicalSort Component

variable {V : Type*} [LinearOrder V] (graph : OrderedMap V (List V))

/-- Sort the components one after the other; they share the degrees. -/
def sortComponents (fuel : Nat) : List (Component V) → (V → Int) → Option (List (List V))
  | [], _ => some []
  | c :: cs, degree => do
    let s ← run (step (targets graph)) fuel ⟨degree, c.nodes, []⟩
    let orders ← sortComponents fuel cs s.degree
    some (s.order :: orders)

/-- `subGraphs` and `subGraphsOrder`. -/
def getConnectedComponents (fuel : Nat) :
    Option (List (OrderedMap V (List V)) × List (List V)) := do
  let s ← run (colorStep graph) fuel (initialSearch graph)
  let orders ← sortComponents graph fuel s.components.reverse (inDegree graph)
  some (s.components.reverse.map subGraph, orders)

/-- The subgraphs are the weakly connected components. -/
structure Partitions (subGraphs : List (OrderedMap V (List V))) : Prop where
  covers : ∀ v ∈ (undirectedGraph graph).keys, ∃ g ∈ subGraphs, v ∈ g.keys
  disjoint : subGraphs.Pairwise fun g h => ∀ v ∈ g.keys, v ∉ h.keys
  component : ∀ g ∈ subGraphs, ∃ root ∈ (undirectedGraph graph).keys,
    ∀ v, v ∈ g.keys ↔ Connected graph root v
  edges : ∀ g ∈ subGraphs, ∀ v ∈ g.keys, g.find v = some (targets graph v)

/-- No handler leads back to itself. -/
def Acyclic : Prop := ∀ v, ¬ Relation.TransGen (fun a b => b ∈ targets graph a) v v

/-- When the search takes a handler without predecessors from its queue, the handler
has no colour. -/
def TakesFresh : Prop :=
  ∀ s, Reaches (colorStep graph) (initialSearch graph) s → ∀ cur rest,
    s.worklist = cur :: rest → inDegree graph cur = 0 → s.color cur = 0

variable {graph} {s t : Search V}

/-! ## The search finishes -/

/-- The handlers without a colour, the handlers to look at, and the handlers that are
taken from the queue again. -/
def Search.measure (graph : OrderedMap V (List V)) (s : Search V) : ℕ ×ₗ ℕ ×ₗ ℕ :=
  toLex (((undirectedGraph graph).keys.toFinset.filter (s.color · = 0)).card,
    toLex (s.pending.length, (s.worklist.takeWhile (s.color · ≠ 0)).length))

omit [LinearOrder V] in
theorem takeWhile_append_of_not {p : V → Bool} {l new : List V} (hnew : ∀ v ∈ new, ¬ p v) :
    (l ++ new).takeWhile p = l.takeWhile p := by
  induction l with
  | nil =>
    cases new with
    | nil => rfl
    | cons v new => simp [hnew v mem_cons_self]
  | cons v l ih => simp [takeWhile_cons, ih]

theorem Search.measure_lt (hs : s.Inv graph) (h : colorStep graph s = some (.inr t)) :
    t.measure graph < s.measure graph := by
  simp only [Search.measure, Prod.Lex.toLex_lt_toLex]
  rcases colorStep_cases h with ⟨cur, rest, hwork, rfl⟩ |
    ⟨hwork, handler, pending, hpend, hcolor, rfl⟩ |
    ⟨hwork, handler, pending, hpend, hcolor, rfl⟩
  · have hcur : cur ∈ s.worklist := by simp [hwork]
    obtain ⟨_, _, -, hpos, hkey, -⟩ := hs.exists_current hcur
    by_cases hfresh : s.color cur = 0
    · left
      refine Finset.card_lt_card ((Finset.ssubset_iff_of_subset fun v hv => ?_).mpr ⟨cur, ?_, ?_⟩)
      · obtain ⟨hv, hzero⟩ := Finset.mem_filter.mp hv
        have hne : v ≠ cur := by
          rintro rfl
          exact hpos (by simpa using hzero)
        exact Finset.mem_filter.mpr ⟨hv, by simpa [update_of_ne hne] using hzero⟩
      · exact Finset.mem_filter.mpr ⟨mem_toFinset.mpr hkey, hfresh⟩
      · simp [hpos]
    · -- a handler with a colour: the queue loses it before its first handler without one
      have hsame : ∀ v, update s.color cur s.curColor v = 0 ↔ s.color v = 0 := by
        intro v
        by_cases hv : v = cur
        · subst hv
          simp [hpos, hfresh]
        · rw [update_of_ne hv]
      right
      simp only [hsame, hwork, ne_eq]
      rw [takeWhile_append_of_not, takeWhile_cons]
      · simp [hfresh]
      · intro v hv
        simpa using (mem_filter.mp hv).2
  · right
    exact ⟨rfl, Or.inl (by simp [hpend])⟩
  · right
    exact ⟨rfl, Or.inl (by simp [hpend])⟩

theorem exists_search (graph : OrderedMap V (List V)) :
    ∃ n s, run (colorStep graph) n (initialSearch graph) = some s := by
  refine (exists_run_iff (Search.measure graph) fun t u ht hstep =>
    Search.measure_lt (.reached ht) hstep).mpr fun t _ => ?_
  rw [colorStep]
  split
  · rfl
  · split
    · rfl
    · split_ifs <;> rfl

/-! ## Handlers that the search takes twice -/

theorem nodup_nodes_of_takesFresh (hfresh : TakesFresh graph)
    (hs : Reaches (colorStep graph) (initialSearch graph) s) :
    ∀ c ∈ s.components, c.nodes.Nodup := by
  induction hs with
  | refl => exact fun c hc => by cases hc
  | @tail s t hs hstep ih =>
    have hinv : s.Inv graph := .reached hs
    rcases colorStep_cases hstep with ⟨cur, rest, hwork, rfl⟩ | ⟨-, _, _, -, -, rfl⟩ |
      ⟨-, _, _, -, -, rfl⟩
    · intro c hc
      obtain ⟨d, done, hcomps, -⟩ := hinv.exists_current (v := cur) (by simp [hwork])
      rw [hcomps] at ih
      simp only [hcomps, modifyHead_cons, mem_cons] at hc
      rcases hc with rfl | hc
      · have hd := ih d mem_cons_self
        simp only [visit]
        split_ifs with hzero
        · refine hd.append (nodup_singleton _) ?_
          rintro v hv hcur
          obtain rfl := mem_singleton.mp hcur
          have hmem := ((hinv.sound d (by simp [hcomps])).nodes v).mp hv
          exact (hinv.colored v).mpr ⟨d, by simp [hcomps], hmem.1⟩
            (hfresh s hs v rest hwork hzero)
        · exact hd
      · exact ih c (mem_cons_of_mem _ hc)
    · intro c hc
      rcases mem_cons.mp hc with rfl | hc
      · exact nodup_nil
      · exact ih c hc
    · exact ih

/-- A handler that is twice among the initial handlers stays there. -/
theorem exists_not_nodup_preserved (h : colorStep graph s = some (.inr t))
    (hs : ∃ c ∈ s.components, ¬ c.nodes.Nodup) : ∃ c ∈ t.components, ¬ c.nodes.Nodup := by
  obtain ⟨c, hc, hdup⟩ := hs
  rcases colorStep_cases h with ⟨cur, rest, -, rfl⟩ | ⟨-, _, _, -, -, rfl⟩ |
    ⟨-, _, _, -, -, rfl⟩
  · cases hcomps : s.components with
    | nil => simp [hcomps] at hc
    | cons d done =>
      rw [hcomps] at hc
      rcases mem_cons.mp hc with rfl | hc
      · refine ⟨_, mem_cons_self, ?_⟩
        simp only [visit]
        split_ifs
        · exact fun hnd => hdup (nodup_append.mp hnd).1
        · exact hdup
      · exact ⟨c, mem_cons_of_mem _ hc, hdup⟩
  · exact ⟨c, mem_cons_of_mem _ hc, hdup⟩
  · exact ⟨c, hc, hdup⟩

variable {n : Nat} {c : Component V} {degree : V → Int} {cs : List (Component V)}
  {orders : List (List V)}

theorem takesFresh_of_nodup (hrun : run (colorStep graph) n (initialSearch graph) = some t)
    (hnd : ∀ c ∈ t.components, c.nodes.Nodup) : TakesFresh graph := by
  intro s hs cur rest hwork hzero
  by_contra hcolor
  have hinv : s.Inv graph := .reached hs
  obtain ⟨c, hc, hmem⟩ := (hinv.colored cur).mp hcolor
  obtain ⟨d, done, hcomps, -, -, hother⟩ := hinv.exists_current (v := cur) (by simp [hwork])
  rw [hcomps] at hc
  rcases mem_cons.mp hc with rfl | hc
  · obtain ⟨u, hstep, hdup⟩ : ∃ u, colorStep graph s = some (.inr u) ∧
        ∃ c ∈ u.components, ¬ c.nodes.Nodup := by
      rw [colorStep, hwork]
      refine ⟨_, rfl, c.visit graph cur, by simp [hcomps], ?_⟩
      have hnode := ((hinv.sound c (by simp [hcomps])).nodes cur).mpr ⟨hmem, hzero⟩
      rw [visit, if_pos hzero]
      exact fun hnd => (nodup_append.mp hnd).2.2 cur hnode cur (by simp) rfl
    obtain ⟨m, hm⟩ := exists_run_of_reaches hrun (hs.tail hstep)
    obtain ⟨v, hreach, hdone⟩ := exists_of_run hm
    obtain ⟨rfl, -, -⟩ := colorStep_done hdone
    obtain ⟨c, hc, hdup⟩ := hreach.invariant hdup fun _ _ h hstep =>
      exists_not_nodup_preserved hstep h
    exact hdup (hnd c hc)
  · exact hother c hc hmem

/-! ## The sort -/

omit [LinearOrder V] in
theorem foldl_inDegree [DecidableEq V] (edges : List (V × V)) (degree : V → Int) (v : V) :
    edges.foldl (fun degree e => update degree e.2 (degree e.2 + 1)) degree v =
      degree v + edges.countP fun e => e.2 = v := by
  induction edges generalizing degree with
  | nil => simp
  | cons e edges ih =>
    rw [foldl_cons, ih, countP_cons]
    by_cases h : e.2 = v
    · subst h
      simp
      omega
    · simp [update_of_ne (Ne.symm h), h]

theorem inDegree_eq_sum (v : V) : inDegree graph v =
    ∑ u ∈ (undirectedGraph graph).keys.toFinset, ((targets graph u).count v : Int) := by
  have hents : ((edgeList graph).countP fun e => e.2 = v) =
      (graph.keys.map fun u => (targets graph u).count v).sum := by
    have hlk : graph.entries.map (fun e => e.2.count v) =
        graph.keys.map fun u => (targets graph u).count v := by
      rw [OrderedMap.keys, map_map]
      refine map_congr_left fun e he => ?_
      rw [comp_apply, targets, OrderedMap.find_eq_some_iff.mpr he, Option.getD_some]
    rw [← hlk, edgeList]
    induction graph.entries with
    | nil => rfl
    | cons e entries ih =>
      rw [flatMap_cons, countP_append, ih, map_cons, sum_cons, countP_map, List.count]
      congr 1
  have hkeys : graph.keys.toFinset ⊆ (undirectedGraph graph).keys.toFinset := fun u hu =>
    mem_toFinset.mpr (mem_keys_undirectedGraph.mpr (Or.inl (mem_toFinset.mp hu)))
  rw [inDegree, foldl_inDegree, hents, Int.zero_add, ← sum_toFinset _ graph.nodup_keys,
    Nat.cast_sum]
  refine Finset.sum_subset hkeys fun u _ hu => ?_
  rw [targets, OrderedMap.find_eq_none_iff.mpr fun h => hu (mem_toFinset.mpr h)]
  rfl

theorem Component.Full.separate (h : c.Full graph) :
    TopologicalSort.Separate (targets graph) (undirectedGraph graph).keys.toFinset
      c.handlers.toFinset := by
  refine ⟨fun v hv => ?_, fun u v huv => ?_, fun u v huv hu => ?_, fun u v huv hv => ?_⟩
  · obtain ⟨root, hroot, hmem⟩ := h
    rw [mem_toFinset, hmem] at hv
    exact mem_toFinset.mpr (hv.mem_keys hroot)
  · rw [mem_toFinset, mem_keys_undirectedGraph]
    exact Or.inl (mem_keys_of_mem_targets huv)
  · rw [mem_toFinset] at hu ⊢
    exact h.mem_of_connected hu (.single (Or.inl huv))
  · rw [mem_toFinset] at hv ⊢
    exact h.mem_of_connected hv (.single (Or.inr huv))

/-- The sort starts with the degrees of the handlers, and with those without predecessors. -/
theorem Component.Sound.start (hsound : c.Sound graph)
    (hdeg : ∀ v ∈ c.handlers, degree v = inDegree graph v) :
    (∀ v ∈ c.handlers.toFinset, degree v =
        ∑ u ∈ (undirectedGraph graph).keys.toFinset, ((targets graph u).count v : Int)) ∧
      ∀ v, v ∈ c.nodes ↔ v ∈ c.handlers.toFinset ∧ degree v = 0 := by
  refine ⟨fun v hv => ?_, fun v => ?_⟩
  · rw [hdeg v (mem_toFinset.mp hv), inDegree_eq_sum]
  · rw [hsound.nodes, mem_toFinset]
    exact and_congr_right fun hv => by rw [hdeg v hv]

theorem sortComponents_cons : sortComponents graph n (c :: cs) degree = some orders ↔
    ∃ s rest, run (step (targets graph)) n ⟨degree, c.nodes, []⟩ = some s ∧
      sortComponents graph n cs s.degree = some rest ∧ s.order :: rest = orders := by
  simp [sortComponents, Option.bind_eq_some_iff]

variable {m : Nat} {P : Component V → List V → Prop}
  {r : List (OrderedMap V (List V)) × List (List V)} {subGraphs : List (OrderedMap V (List V))}

theorem sortComponents_mono (h : sortComponents graph n cs degree = some orders) (hle : n ≤ m) :
    sortComponents graph m cs degree = some orders := by
  induction cs generalizing degree orders with
  | nil => exact h
  | cons c cs ih =>
    obtain ⟨s, rest, hs, hrest, rfl⟩ := sortComponents_cons.mp h
    exact sortComponents_cons.mpr ⟨s, rest, run_mono hs hle, ih hrest, rfl⟩

variable (graph) in
/-- The sort of a component finishes with such an order. It changes no degrees of other
handlers. -/
def SortsTo (c : Component V) (P : List V → Prop) : Prop :=
  ∀ degree : V → Int, (∀ v ∈ c.handlers, degree v = inDegree graph v) →
    ∃ n s, run (step (targets graph)) n ⟨degree, c.nodes, []⟩ = some s ∧
      P s.order ∧ ∀ v ∉ c.handlers, s.degree v = degree v

/-- The components are sorted one after the other, as each sort changes the degrees of
its own component only. -/
theorem exists_sortComponents (hsort : ∀ c ∈ cs, SortsTo graph c (P c))
    (hdisj : cs.Pairwise fun c d => ∀ v ∈ c.handlers, v ∉ d.handlers)
    (hdeg : ∀ c ∈ cs, ∀ v ∈ c.handlers, degree v = inDegree graph v) :
    ∃ n orders, sortComponents graph n cs degree = some orders ∧ List.Forall₂ P cs orders := by
  induction cs generalizing degree with
  | nil => exact ⟨0, [], rfl, .nil⟩
  | cons c cs ih =>
    obtain ⟨n, s, hs, hord, hother⟩ :=
      hsort c mem_cons_self degree (hdeg c mem_cons_self)
    obtain ⟨hhead, htail⟩ := pairwise_cons.mp hdisj
    have hleft : ∀ d ∈ cs, ∀ v ∈ d.handlers, s.degree v = inDegree graph v := by
      intro d hd v hv
      rw [hother v fun hmem => hhead d hd v hmem hv]
      exact hdeg d (mem_cons_of_mem _ hd) v hv
    obtain ⟨m, orders, horders, hall⟩ :=
      ih (fun d hd => hsort d (mem_cons_of_mem _ hd)) htail hleft
    exact ⟨max n m, s.order :: orders, sortComponents_cons.mpr ⟨s, orders,
      run_mono hs (le_max_left n m), sortComponents_mono horders (le_max_right n m), rfl⟩,
      .cons hord hall⟩

theorem exists_sort_lists (hacyc : Acyclic graph) (hsound : c.Sound graph)
    (hfull : c.Full graph) (hnd : c.nodes.Nodup) :
    SortsTo graph c (TopologicalSort.Lists (targets graph) (· ∈ c.handlers)) := by
  intro degree hdeg
  obtain ⟨hsum, hnodes⟩ := hsound.start hdeg
  obtain ⟨n, s, hs, hlists, hother⟩ := exists_run_lists hfull.separate hacyc
    (.start hfull.separate hsum hnd hnodes)
  exact ⟨n, s, hs, ⟨hlists.nodup, fun v => (hlists.mem v).trans mem_toFinset, hlists.preds⟩,
    fun v hv => hother v fun hmem => hv (mem_toFinset.mp hmem)⟩

/-- Every handler with predecessors comes after one of them. -/
def Follows (graph : OrderedMap V (List V)) (order : List V) : Prop :=
  ∀ l v l', order = l ++ v :: l' → ∀ w, v ∈ targets graph w → ∃ u ∈ l, v ∈ targets graph u

/-- The sort comes to all handlers, even if it starts with some of them twice. -/
theorem exists_sort_covers (hacyc : Acyclic graph) (hsound : c.Sound graph)
    (hfull : c.Full graph) : SortsTo graph c fun order =>
      (∀ v, v ∈ order ↔ v ∈ c.handlers) ∧ Follows graph order := by
  intro degree hdeg
  obtain ⟨hsum, hnodes⟩ := hsound.start hdeg
  obtain ⟨n, s, hs, hcovers, hother⟩ :=
    exists_run_covers hfull.separate hacyc hsum hnodes
  refine ⟨n, s, hs, ⟨fun v => (hcovers v).trans mem_toFinset, ?_⟩,
    fun v hv => hother v fun hmem => hv (mem_toFinset.mp hmem)⟩
  intro l v l' hord w hw
  refine (exists_pred_of_run hs hord).resolve_left fun hv => ?_
  have hzero := (hsound.nodes v).mp hv |>.2
  rw [inDegree_eq_sum, Finset.sum_eq_zero_iff_of_nonneg fun u _ => Int.natCast_nonneg _] at hzero
  have hkey : w ∈ (undirectedGraph graph).keys :=
    mem_keys_undirectedGraph.mpr (Or.inl (mem_keys_of_mem_targets hw))
  have hcnt := hzero w (mem_toFinset.mpr hkey)
  exact (count_pos_iff.mpr hw).ne' (by exact_mod_cast hcnt)

theorem nodup_nodes_of_orders (h : sortComponents graph n cs degree = some orders)
    (hnd : ∀ order ∈ orders, order.Nodup) : ∀ c ∈ cs, c.nodes.Nodup := by
  induction cs generalizing degree orders with
  | nil => exact fun c hc => by cases hc
  | cons c cs ih =>
    obtain ⟨s, rest, hs, hrest, rfl⟩ := sortComponents_cons.mp h
    intro d hd
    rcases mem_cons.mp hd with rfl | hd
    · obtain ⟨l, hl⟩ := exists_order_eq hs
      have hord := hnd s.order mem_cons_self
      rw [hl] at hord
      exact (nodup_append.mp hord).1
    · exact ih hrest (fun order hord => hnd order (mem_cons_of_mem _ hord)) d hd

/-- The search finds the weakly connected components. -/
theorem Search.Inv.partitions (hs : s.Inv graph) (hwork : s.worklist = [])
    (hpend : s.pending = []) :
    Partitions graph (s.components.reverse.map subGraph) := by
  refine ⟨fun v hv => ?_, ?_, ?_, ?_⟩
  · have hcolor : s.color v ≠ 0 := by simpa [hwork, hpend] using hs.covered v hv
    obtain ⟨c, hc, hmem⟩ := (hs.colored v).mp hcolor
    exact ⟨c.subGraph, mem_map_of_mem (mem_reverse.mpr hc), hmem⟩
  · rw [pairwise_map, pairwise_reverse]
    exact hs.disjoint.imp fun h v hv hmem => h v hmem hv
  · simp only [mem_map, mem_reverse]
    rintro _ ⟨c, hc, rfl⟩
    exact hs.full_of_idle hwork c hc
  · simp only [mem_map, mem_reverse]
    rintro _ ⟨c, hc, rfl⟩
    exact (hs.sound c hc).edges

theorem getConnectedComponents_eq_some : getConnectedComponents graph n = some r ↔
      ∃ s orders, run (colorStep graph) n (initialSearch graph) = some s ∧
        sortComponents graph n s.components.reverse (inDegree graph) = some orders ∧
        (s.components.reverse.map subGraph, orders) = r := by
  simp [getConnectedComponents, Option.bind_eq_some_iff]

/-- The search always finishes; so does the whole analysis if every component of the
search can be sorted. -/
theorem exists_getConnectedComponents
    (hsort : ∀ s, Reaches (colorStep graph) (initialSearch graph) s → ∀ c ∈ s.components,
      c.Sound graph → c.Full graph → SortsTo graph c (P c)) :
    ∃ n, ∃ cs : List (Component V), ∃ orders,
      getConnectedComponents graph n = some (cs.map subGraph, orders) ∧
      Partitions graph (cs.map subGraph) ∧ List.Forall₂ P cs orders := by
  obtain ⟨n, s, hs⟩ := exists_search graph
  obtain ⟨t, hreach, hdone⟩ := exists_of_run hs
  obtain ⟨rfl, hwork, hpend⟩ := colorStep_done hdone
  have hinv : Search.Inv graph s := .reached hreach
  obtain ⟨m, orders, horders, hall⟩ := exists_sortComponents
    (fun c hc => hsort s hreach c (mem_reverse.mp hc)
      (hinv.sound c (mem_reverse.mp hc)) (hinv.full_of_idle hwork c (mem_reverse.mp hc)))
    (pairwise_reverse.mpr (hinv.disjoint.imp fun h v hv hmem => h v hmem hv))
    fun _ _ v _ => rfl (a := inDegree graph v)
  exact ⟨max n m, s.components.reverse, orders, getConnectedComponents_eq_some.mpr ⟨s, orders,
    run_mono hs (le_max_left n m), sortComponents_mono horders (le_max_right n m), rfl⟩,
    hinv.partitions hwork hpend, hall⟩

/-- For every acyclic graph and every order of its handlers, `getConnectedComponents`
returns the weakly connected components, each with a topological order of its handlers,
exactly if its search never takes a handler without predecessors from the queue again. -/
theorem getConnectedComponents_iff (graph : OrderedMap V (List V)) (hacyclic : Acyclic graph) :
    (∃ n subGraphs orders, getConnectedComponents graph n = some (subGraphs, orders) ∧
        Partitions graph subGraphs ∧
        List.Forall₂ (fun g order => TopologicalSort.Lists (targets graph) (· ∈ g.keys) order)
          subGraphs orders) ↔
      TakesFresh graph := by
  constructor
  · rintro ⟨n, subGraphs, orders, h, -, hlists⟩
    obtain ⟨s, _, hs, horders, heq⟩ := getConnectedComponents_eq_some.mp h
    cases heq
    refine takesFresh_of_nodup hs fun c hc =>
      nodup_nodes_of_orders horders (fun order hord => ?_) c (mem_reverse.mpr hc)
    obtain ⟨i, hi, rfl⟩ := mem_iff_getElem.mp hord
    exact (List.forall₂_iff_get.mp hlists).2 i (hlists.length_eq ▸ hi) hi |>.nodup
  · intro hfresh
    obtain ⟨n, cs, orders, hrun, hparts, hlists⟩ := exists_getConnectedComponents
      fun s hreach c hc hsound hfull => exists_sort_lists hacyclic hsound hfull
        (nodup_nodes_of_takesFresh hfresh hreach c hc)
    exact ⟨n, _, orders, hrun, hparts, List.forall₂_map_left_iff.mpr hlists⟩

/-- The components and their handlers are always found, in some order. -/
theorem exists_getConnectedComponents_covers (hacyc : Acyclic graph) :
    ∃ n subGraphs orders, getConnectedComponents graph n = some (subGraphs, orders) ∧
      Partitions graph subGraphs ∧
      List.Forall₂ (fun g order => (∀ v, v ∈ order ↔ v ∈ g.keys) ∧ Follows graph order)
        subGraphs orders := by
  obtain ⟨n, cs, orders, hrun, hparts, hall⟩ := exists_getConnectedComponents
    (P := fun c order => (∀ v, v ∈ order ↔ v ∈ c.handlers) ∧ Follows graph order)
    fun _ _ _ _ => exists_sort_covers hacyc
  exact ⟨n, _, orders, hrun, hparts, List.forall₂_map_left_iff.mpr hall⟩

theorem getConnectedComponents_mono {graph : OrderedMap V (List V)}
    (h : getConnectedComponents graph n = some r) (hle : n ≤ m) :
    getConnectedComponents graph m = some r := by
  obtain ⟨s, orders, hs, horders, rfl⟩ := getConnectedComponents_eq_some.mp h
  exact getConnectedComponents_eq_some.mpr
    ⟨s, orders, run_mono hs hle, sortComponents_mono horders hle, rfl⟩

/-- Each list has the handlers of a component. -/
structure Groups (graph : OrderedMap V (List V)) (orders : List (List V)) : Prop where
  covers : ∀ v, (∃ order ∈ orders, v ∈ order) ↔ v ∈ (undirectedGraph graph).keys
  closed : ∀ order ∈ orders, ∀ v w, Linked graph v w → (v ∈ order ↔ w ∈ order)
  follows : ∀ order ∈ orders, Follows graph order

theorem Partitions.groups (h : Partitions graph subGraphs)
    (hmem : List.Forall₂ (fun g order => (∀ v, v ∈ order ↔ v ∈ g.keys) ∧ Follows graph order)
      subGraphs orders) : Groups graph orders := by
  obtain ⟨hlen, hget⟩ := List.forall₂_iff_get.mp hmem
  have hcomponent : ∀ order ∈ orders, ∃ root ∈ (undirectedGraph graph).keys,
      ∀ v, v ∈ order ↔ Connected graph root v := by
    intro order hord
    obtain ⟨i, hi, rfl⟩ := mem_iff_getElem.mp hord
    obtain ⟨root, hroot, hall⟩ := h.component _ (getElem_mem (hlen ▸ hi))
    exact ⟨root, hroot, fun v => ((hget i (hlen ▸ hi) hi).1 v).trans (hall v)⟩
  refine ⟨fun v => ⟨?_, fun hv => ?_⟩, fun order hord v w hlinked => ?_, fun order hord => ?_⟩
  · rintro ⟨order, hord, hv⟩
    obtain ⟨root, hroot, hall⟩ := hcomponent order hord
    exact ((hall v).mp hv).mem_keys hroot
  · obtain ⟨g, hg, hv⟩ := h.covers v hv
    obtain ⟨i, hi, rfl⟩ := mem_iff_getElem.mp hg
    exact ⟨_, getElem_mem (hlen ▸ hi), ((hget i hi (hlen ▸ hi)).1 v).mpr hv⟩
  · obtain ⟨root, -, hall⟩ := hcomponent order hord
    rw [hall, hall]
    exact ⟨fun hv => hv.tail hlinked, fun hw => hw.tail hlinked.symm⟩
  · obtain ⟨i, hi, rfl⟩ := mem_iff_getElem.mp hord
    exact (hget i (hlen ▸ hi) hi).2

theorem groups_of_getConnectedComponents (hacyc : Acyclic graph)
    (h : getConnectedComponents graph n = some (subGraphs, orders)) : Groups graph orders := by
  obtain ⟨m, subGraphs', orders', h', hparts, hmem⟩ :=
    exists_getConnectedComponents_covers hacyc
  have heq := (getConnectedComponents_mono h (le_max_left n m)).symm.trans
    (getConnectedComponents_mono h' (le_max_right n m))
  cases heq
  exact hparts.groups hmem

/-! ## Diamonds -/

theorem acyclic_of_lt {graph : OrderedMap Nat (List Nat)} (rank : Nat → Nat)
    (h : ∀ e ∈ graph.entries, ∀ b ∈ e.2, rank e.1 < rank b) : Acyclic graph := by
  have hedge : ∀ a b, b ∈ targets graph a → rank a < rank b := by
    intro a b hab
    obtain ⟨e, he, hb⟩ := mem_flatMap.mp (mem_edgeList.mpr hab)
    obtain ⟨_, hb, heq⟩ := mem_map.mp hb
    cases heq
    exact h e he _ hb
  have hlt : ∀ a b, Relation.TransGen (fun a b => b ∈ targets graph a) a b → rank a < rank b := by
    intro a b hab
    induction hab with
    | single hb => exact hedge _ _ hb
    | tail _ hb ih => exact ih.trans (hedge _ _ hb)
  exact fun v hv => lt_irrefl _ (hlt v v hv)

/-- Two ways from one handler to another. -/
def diamond : OrderedMap Nat (List Nat) where
  entries := [(0, [1, 2]), (1, [3]), (2, [3]), (3, [])]
  sorted := by decide

theorem getConnectedComponents_diamond :
    ∃ n subGraphs orders, getConnectedComponents diamond n = some (subGraphs, orders) ∧
      Partitions diamond subGraphs ∧
      List.Forall₂ (fun g order => TopologicalSort.Lists (targets diamond) (· ∈ g.keys) order)
        subGraphs orders := by
  refine (getConnectedComponents_iff diamond (acyclic_of_lt id (by decide))).mpr ?_
  intro s hs cur rest hwork hzero
  have hcheck : checks (colorStep diamond) (fun s => s.worklist.head?.all fun cur =>
      inDegree diamond cur ≠ 0 || s.color cur = 0) 12 (initialSearch diamond) := by decide +kernel
  simpa [hwork, hzero] using of_checks hcheck hs

/-- The handlers `0` and `1` both lead to `2` and `3`; another way to `2` is from `5`
over `4`. -/
def twoSources : OrderedMap Nat (List Nat) where
  entries := [(0, [2, 3]), (1, [2, 3]), (2, []), (3, []), (4, [2]), (5, [4])]
  sorted := by decide

/-- The handler `1` is listed twice, and the handler `2` before its predecessor `4`. -/
theorem getConnectedComponents_twoSources : Acyclic twoSources ∧
      (getConnectedComponents twoSources 20).map Prod.snd = some [[0, 1, 1, 5, 3, 2, 4]] ∧
      ¬ ∃ n subGraphs orders, getConnectedComponents twoSources n = some (subGraphs, orders) ∧
        Partitions twoSources subGraphs ∧
        List.Forall₂ (fun g order => TopologicalSort.Lists (targets twoSources) (· ∈ g.keys) order)
          subGraphs orders := by
  have hrun : (getConnectedComponents twoSources 20).map Prod.snd =
      some [[0, 1, 1, 5, 3, 2, 4]] := by decide +kernel
  refine ⟨acyclic_of_lt (fun v => [0, 0, 2, 2, 1, 0].getD v 0) (by decide), hrun, ?_⟩
  rintro ⟨n, subGraphs, orders, h, -, hlists⟩
  obtain ⟨⟨subGraphs', orders'⟩, hrun, horders⟩ := Option.map_eq_some_iff.mp hrun
  have hsame := (getConnectedComponents_mono h (le_max_left n 20)).symm.trans
    (getConnectedComponents_mono hrun (le_max_right n 20))
  obtain ⟨rfl, rfl⟩ := Prod.mk.inj (Option.some.inj hsame)
  rw [show orders = [[0, 1, 1, 5, 3, 2, 4]] from horders] at hlists
  cases hlists with
  | cons hhead _ => exact absurd hhead.nodup (by decide)

end Alkali.HandlerGraph
