import Alkali.Pipeline.CutSound

/-!
# Events that no cut separates from their returns

An infinite path leads from an event through its return to the sink. The `InitOp` stays with
the event if the edges into its operands weigh no more than its edge to the event, because
a cut between the two could be moved in front of the operands. The rounds of
`runBalancedMinCut` keep that up: an operand with other users is never collapsed into the
source, and what a round freezes on the side of the sink only ties the event closer.
-/

namespace Alkali

open List NetworkFlow AdjacencyMap

/-- Elements that satisfy a predicate weigh no more than all that have the same keys. -/
theorem sum_ite_le_sum_filter {α κ : Type} [DecidableEq κ] {l : List α} {P : α → Prop}
    [DecidablePred P] {f : α → κ} {w : α → Int} {ks : List κ}
    (hkey : ∀ x ∈ l, P x → f x ∈ ks) (hpos : ∀ x ∈ l, 0 ≤ w x) :
    (l.map fun x => if P x then w x else 0).sum ≤
      (ks.map fun k => ((l.filter fun x => f x = k).map w).sum).sum := by
  induction l with
  | nil => simp
  | cons x l ih =>
    have hsplit : (fun k => (((x :: l).filter fun y => f y = k).map w).sum) = fun k =>
        (if f x = k then w x else 0) + ((l.filter fun y => f y = k).map w).sum := by
      funext k
      by_cases hk : f x = k <;> simp [hk]
    have hx := hpos x mem_cons_self
    have hfirst : (if P x then w x else 0) ≤
        (ks.map fun k => if f x = k then w x else 0).sum := by
      have hnonneg : ∀ y ∈ ks.map fun k => if f x = k then w x else 0, 0 ≤ y := by
        intro y hy
        obtain ⟨k, -, rfl⟩ := mem_map.mp hy
        split_ifs
        · exact hx
        · exact le_rfl
      by_cases hP : P x
      · rw [if_pos hP]
        refine single_le_sum hnonneg _ (mem_map.mpr ⟨f x, hkey x mem_cons_self hP, if_pos rfl⟩)
      · rw [if_neg hP]
        exact sum_nonneg hnonneg
    have hrest := ih (fun y hy => hkey y (mem_cons_of_mem _ hy))
      fun y hy => hpos y (mem_cons_of_mem _ hy)
    rw [map_cons, sum_cons, hsplit, sum_map_add]
    exact add_le_add hfirst hrest

namespace CutGraph

/-- The weight of the edges of `myAdjList` into a vertex. -/
def inWeight (g : CutGraph) (v : Vertex) : Int :=
  ((g.adj.edges.filter fun e => e.2.1 = v).map fun e => e.2.2).sum

/-- An `InitOp` with its event and its operands, from which no cheapest cut separates it. -/
structure Held (g : CutGraph) (i : OpId) (e : Value) (us : List Value) : Prop where
  event : ∃ r, (.value e, r, infWt) ∈ g.edges ∧ (r, .globalSink, infWt) ∈ g.edges
  operands : ∀ u ∈ us, (.value u, .op i, infWt) ∈ g.edges
  entered : ∀ s w, (s, .op i, w) ∈ g.edges →
    (∃ u ∈ us, s = .value u) ∨ (s, .globalSink, infWt) ∈ g.edges
  real : ∀ s w, ∀ u ∈ us, (s, .value u, w) ∉ g.falseEdges
  shared : ∀ u ∈ us, g.outDegree (.value u) ≠ 1
  cost : ∃ w, (.op i, .value e, w) ∈ g.adj.edges ∧
    (infWt ≤ w ∨ (us.map fun u => g.inWeight (.value u)).sum ≤ w)

variable {g g' : CutGraph} {φ : g.Flow} {weight : Vertex → Int} {i : OpId} {e : Value}
  {us : List Value}

section Round

variable (hg : g.Closed) (hφ : IsMaxFlow g.network φ) (hval : value g.network φ < infMin)
include hg hφ hval

theorem tied_not_reached {u : Vertex} (hu : (u, .globalSink, infWt) ∈ g.edges) : u ∉ reached φ :=
  fun h => sink_not_mem_reached hg hφ (reached_of_inf_edge hg hφ hval hu h)

theorem Held.event_not_reached (h : g.Held i e us) : .value e ∉ reached φ := by
  obtain ⟨r, hr, hsink⟩ := h.event
  exact fun he => tied_not_reached hg hφ hval hsink (reached_of_inf_edge hg hφ hval hr he)

/-- The edges that lead to the `InitOp` and its operands from elsewhere in the discovered
set are edges to operands. -/
theorem Held.sum_entering_le (h : g.Held i e us) (hpos : ∀ x ∈ g.adj.edges, 0 < x.2.2)
    {X : Finset Vertex} (hX : ∀ x, x ∈ X ↔ x = .op i ∨ ∃ u ∈ us, x = .value u) :
    ∑ k with g.network.src k ∈ reached φ \ X ∧ g.network.dst k ∈ reached φ ∩ X,
        g.network.cap k ≤ (us.map fun u => g.inWeight (.value u)).sum := by
  have hends : ∀ x ∈ g.edges, x.1 ∈ reached φ \ X ∧ x.2.1 ∈ reached φ ∩ X →
      x ∈ g.adj.edges ∧ x.2.1 ∈ us.map Vertex.value := by
    rintro ⟨s, d, w⟩ hx ⟨hs, hd⟩
    obtain ⟨hsR, hsX⟩ := Finset.mem_sdiff.mp hs
    rcases (hX d).mp (Finset.mem_inter.mp hd).2 with rfl | ⟨u, hu, rfl⟩
    · rcases h.entered s w hx with ⟨u, hu, rfl⟩ | htied
      · exact absurd ((hX _).mpr (Or.inr ⟨u, hu, rfl⟩)) hsX
      · exact absurd hsR (tied_not_reached hg hφ hval htied)
    · exact ⟨(mem_append.mp hx).resolve_right (h.real s w u hu), mem_map_of_mem hu⟩
  have hsum : ∑ k with g.network.src k ∈ reached φ \ X ∧ g.network.dst k ∈ reached φ ∩ X,
      g.network.cap k = (g.edges.map fun x =>
        if x.1 ∈ reached φ \ X ∧ x.2.1 ∈ reached φ ∩ X then x.2.2 else 0).sum := by
    rw [Finset.sum_filter]
    exact Fin.sum_univ_fun_getElem g.edges fun x =>
      if x.1 ∈ reached φ \ X ∧ x.2.1 ∈ reached φ ∩ X then x.2.2 else 0
  have hfalse : (g.falseEdges.map fun x =>
      if x.1 ∈ reached φ \ X ∧ x.2.1 ∈ reached φ ∩ X then x.2.2 else 0).sum = 0 := by
    refine sum_eq_zero fun y hy => ?_
    obtain ⟨⟨s, d, w⟩, hx, rfl⟩ := mem_map.mp hy
    refine if_neg fun hP => ?_
    obtain ⟨u, hu, rfl⟩ := mem_map.mp (hends _ (mem_append_right _ hx) hP).2
    exact h.real s w u hu hx
  rw [hsum, edges, map_append, sum_append, hfalse, add_zero]
  have hle := sum_ite_le_sum_filter (l := g.adj.edges) (f := fun x => x.2.1)
    (P := fun x => x.1 ∈ reached φ \ X ∧ x.2.1 ∈ reached φ ∩ X) (w := fun x => x.2.2)
    (fun x hx hP => (hends x (mem_append_left _ hx) hP).2) fun x hx => (hpos x hx).le
  rwa [map_map] at hle

/-- The discovered set does not have the `InitOp`. -/
theorem Held.not_reached (h : g.Held i e us) (hpos : ∀ x ∈ g.adj.edges, 0 < x.2.2) :
    .op i ∉ reached φ := by
  intro hi
  have he := h.event_not_reached hg hφ hval
  obtain ⟨w, hw, hcost⟩ := h.cost
  rcases hcost with hinf | hcost
  · have hheavy : infMin ≤ infWt := by decide
    exact he (reached_of_heavy_edge hg hφ hval (mem_append_left _ hw) (hheavy.trans hinf) hi)
  · -- a cheapest cut without the `InitOp` and its operands
    have hR : ∀ v, v ∈ reached φ ↔
        Relation.ReflTransGen (Residual g.network φ) g.network.source v := fun v => mem_reached hg
    have hne : g.network.source ≠ g.network.sink := by simp [network]
    let X : Finset Vertex := insert (.op i) (us.map Vertex.value).toFinset
    have hX : ∀ x, x ∈ X ↔ x = .op i ∨ ∃ u ∈ us, x = .value u := by
      intro x
      simp [X, eq_comm]
    have hsource : g.network.source ∉ X := by
      rw [hX]
      rintro (h | ⟨u, -, h⟩) <;> cases h
    have hout : w ≤ ∑ k with g.network.src k ∈ reached φ ∩ X ∧ g.network.dst k ∉ reached φ,
        g.network.cap k := by
      obtain ⟨k, hk⟩ := get_of_mem (mem_append_left g.falseEdges hw)
      refine (network_cap hk).symm.le.trans (Finset.single_le_sum
        (fun k _ => (hφ.nonneg k).trans (hφ.le_cap k)) (Finset.mem_filter.mpr ⟨Finset.mem_univ k,
          ?_, ?_⟩))
      · rw [network_src hk]
        exact Finset.mem_inter.mpr ⟨hi, (hX _).mpr (Or.inl rfl)⟩
      · rwa [network_dst hk]
    have hmin := (hφ.isMinCut_reachable hne hR).1.sdiff hsource
      ((h.sum_entering_le hg hφ hval hpos hX).trans (hcost.trans hout))
    exact (Finset.mem_sdiff.mp (hφ.mem_of_isMinCut hne hR hmin hi)).2 ((hX _).mpr (Or.inl rfl))

end Round

section Freeze

variable {inside : Vertex → Bool} {s d v : Vertex} {w : Int}

/-- An assignment leaves the edges alone that the assigned one is not among. -/
theorem filter_edges_assign {m : AdjacencyMap Vertex Int} {p : Vertex × Vertex × Int → Bool}
    (hp : ∀ w', p (s, d, w') = false) :
    (m.assign s d w).edges.filter p = m.edges.filter p := by
  rw [assign, filter_cons, hp, if_neg Bool.false_ne_true, filter_filter]
  refine filter_congr fun x _ => ?_
  obtain ⟨s', d', w'⟩ := x
  by_cases hx : s' = s ∧ d' = d
  · obtain ⟨rfl, rfl⟩ := hx
    simp [hp]
  · simp [hx]

theorem outDegree_freeze_assign (hv : v ≠ s) :
    outDegree { g with adj := (freeze (g := g) inside).assign s d w } v = g.outDegree v := by
  rw [outDegree, outDegree, filter_edges_assign fun _ => by simpa using hv.symm, freeze,
    mapWeights, filter_map, length_map]
  rfl

theorem inWeight_freeze_assign (hd : v ≠ d) (hv : inside v = false) :
    inWeight { g with adj := (freeze (g := g) inside).assign s d w } v = g.inWeight v := by
  rw [inWeight, inWeight, filter_edges_assign fun _ => by simpa using hd.symm, freeze, mapWeights,
    filter_map, map_map]
  refine congrArg sum (map_congr_left fun x hx => ?_)
  have hx : x.2.1 = v := by simpa using (mem_filter.mp hx).2
  simp [hx, hv]

theorem mem_edges_freeze_assign {x : Vertex × Vertex × Int} :
    x ∈ ((freeze (g := g) inside).assign s d w).edges ↔ x = (s, d, w) ∨
      ¬ (x.1 = s ∧ x.2.1 = d) ∧ ∃ w', (x.1, x.2.1, w') ∈ g.adj.edges ∧
        (if inside x.1 && inside x.2.1 && w' < infWt then infWt else w') = x.2.2 := by
  obtain ⟨s', d', w'⟩ := x
  rw [mem_edges_assign, freeze, mem_edges_mapWeights]

end Freeze

section Again

variable {bal : Balance} {topo : Vertex → Nat}

/-- A cut edge leads out of the discovered set. -/
theorem exists_edge_of_cutEdges (hw : ∀ v, 1 ≤ weight v) {x : Vertex × Vertex}
    (hx : x ∈ cutEdges φ weight) :
    ∃ w, (x.1, x.2, w) ∈ g.adj.edges ∧ x.1 ∈ reached φ ∧ x.2 ∉ reached φ := by
  obtain ⟨⟨s, d, w⟩, hcut, rfl⟩ := mem_map.mp hx
  obtain ⟨hmem, hends⟩ := mem_filter.mp hcut
  have hends : wmap φ weight s ≠ 0 ∧ wmap φ weight d = 0 := by simpa using hends
  exact ⟨w, hmem, by_contra fun hs => hends.1 ((wmap_eq_zero hw).mpr hs),
    (wmap_eq_zero hw).mp hends.2⟩

/-- What a round that goes on makes of the graph. -/
theorem Held.again (hg : g.Closed) (hw : ∀ v, 1 ≤ weight v) (input : RoundInput g φ topo)
    (h : g.Held i e us) (hround : balancedRound bal weight g φ topo = .again g') :
    g'.Held i e us := by
  obtain ⟨hval, c, -, hcase⟩ := balancedRound_eq_again hround
  have hφ := input.maxFlow
  have hi := h.not_reached hg hφ hval input.positive
  have he := h.event_not_reached hg hφ hval
  have hus : ∀ u ∈ us, .value u ∉ reached φ := fun u hu hR =>
    hi (reached_of_inf_edge hg hφ hval (h.operands u hu) hR)
  have hext := balancedRound_again hg hround
  have hentered : ∀ s w, (s, .op i, w) ∈ g.edges →
      (∃ u ∈ us, s = .value u) ∨ (s, .globalSink, infWt) ∈ g'.edges := fun s w hs =>
    (h.entered s w hs).imp_right hext.inf_edge
  -- an edge into the `InitOp` does not leave the discovered set
  have hcut : ∀ s w, (s, .op i, w) ∈ g.adj.edges → s ∉ reached φ := by
    intro s w hs hR
    rcases h.entered s w (mem_append_left _ hs) with ⟨u, hu, rfl⟩ | htied
    · exact hus u hu hR
    · exact tied_not_reached hg hφ hval htied hR
  obtain ⟨w, hmem, hcost⟩ := h.cost
  have hevent : ∃ r, (.value e, r, infWt) ∈ g'.edges ∧ (r, .globalSink, infWt) ∈ g'.edges := by
    obtain ⟨r, hr, hsink⟩ := h.event
    exact ⟨r, hext.inf_edge hr, hext.inf_edge hsink⟩
  rcases hcase with ⟨hc, rfl⟩ | ⟨hc, rfl⟩
  · -- the source grows by a vertex with one edge, which is neither the `InitOp` nor an operand
    obtain ⟨hcand, hc⟩ := mem_filter.mp hc
    have hdegree : g.outDegree c = 1 := (of_decide_eq_true hc).2.1
    obtain ⟨⟨a, c⟩, hedge, rfl⟩ := mem_map.mp hcand
    obtain ⟨w', ha, haR, -⟩ := exists_edge_of_cutEdges hw hedge
    have hfrozen : ∀ v, v ∉ reached φ → (decide (wmap φ weight v ≠ 0)) = false := fun v hv => by
      simpa using (wmap_eq_zero hw).mpr hv
    have hne : ∀ u ∈ us, Vertex.value u ≠ c := by
      rintro u hu rfl
      exact h.shared u hu hdegree
    refine ⟨hevent, fun u hu => hext.inf_edge (h.operands u hu), fun s x hs => ?_, h.real,
      fun u hu => ?_, w, ?_, ?_⟩
    · rcases mem_append.mp hs with hs | hs
      · rcases mem_edges_freeze_assign.mp hs with heq | ⟨-, x', hs, -⟩
        · cases heq
          exact absurd haR (hcut a w' ha)
        · exact hentered s x' (mem_append_left _ hs)
      · exact hentered s x (mem_append_right _ hs)
    · rw [outDegree_freeze_assign (by simp)]
      exact h.shared u hu
    · refine mem_edges_freeze_assign.mpr (Or.inr ⟨by simp, w, hmem, ?_⟩)
      simp [hfrozen _ hi]
    · refine hcost.imp_right fun hle => le_of_eq_of_le (congrArg sum (map_congr_left ?_)) hle
      exact fun u hu => inWeight_freeze_assign (hne u hu) (hfrozen _ (hus u hu))
  · -- the sink grows: the edge to the event is infinite from now on
    obtain ⟨hcand, -⟩ := mem_filter.mp hc
    obtain ⟨⟨_, a⟩, hedge, rfl⟩ := mem_map.mp hcand
    obtain ⟨-, -, hcR, -⟩ := exists_edge_of_cutEdges hw hedge
    have hfrozen : ∀ v, v ∉ reached φ → (decide (wmap φ weight v = 0)) = true := fun v hv => by
      simpa using (wmap_eq_zero hw).mpr hv
    refine ⟨hevent, fun u hu => hext.inf_edge (h.operands u hu), fun s x hs => ?_, h.real,
      fun u hu => ?_, if w < infWt then infWt else w, ?_, Or.inl ?_⟩
    · rcases mem_append.mp hs with hs | hs
      · rcases mem_edges_freeze_assign.mp hs with heq | ⟨-, x', hs, -⟩
        · cases heq
        · exact hentered s x' (mem_append_left _ hs)
      · exact hentered s x (mem_append_right _ hs)
    · rw [outDegree_freeze_assign]
      · exact h.shared u hu
      · rintro rfl
        exact hus u hu hcR
    · refine mem_edges_freeze_assign.mpr (Or.inr ⟨by simp, w, hmem, ?_⟩)
      simp [hfrozen _ hi, hfrozen _ he]
    · split_ifs with hlt
      · exact le_rfl
      · exact not_lt.mp hlt

/-- No run puts the `InitOp` into the source. -/
theorem Held.not_mem_source (hg : g.Closed) (hw : ∀ v, 1 ≤ weight v) {S : List Vertex}
    (h : g.Held i e us) (run : RunBalancedMinCut bal weight g (.success S)) : .op i ∉ S := by
  generalize hr : CutResult.success S = r at run
  induction run with
  | done input hround =>
    subst hr
    obtain ⟨hval, hS⟩ := balancedRound_success hg hw hround
    rw [hS]
    exact h.not_reached hg input.maxFlow hval input.positive
  | again input hround _ ih =>
    exact ih ((balancedRound_again hg hround).closed hg) (h.again hg hw input hround) hr

end Again

end CutGraph

open PipelineHandler

/-- An `InitOp` that stays with its event, in the graph of its handler. All uses of the event
are returns, every operand has another user, and the edges into the operands weigh no more
than the edge to the event. -/
structure FuncOp.HoldsEvent (f : FuncOp) (g : CutGraph) (i : Operation) : Prop where
  returned : ∀ v ∈ i.defs, ∀ o ∈ f.operations, v ∈ o.operands → o.isReturn
  operands : i.operands ≠ []
  shared : ∀ u ∈ i.operands, g.outDegree (.value u) ≠ 1
  cost : ∀ v ∈ i.defs, ∃ w, (.op i.id, .value v, w) ∈ g.adj.edges ∧
    (i.operands.dedup.map fun u => g.inWeight (.value u)).sum ≤ w

section Handler

variable {policy : PipelinePolicy} {f : FuncOp} {g : CutGraph} {i o : Operation} {v : Value}
  {s : Vertex} {w : Int}

theorem originVertex_ne_value {b : Nat} {u : Value} : originVertex f b v ≠ .value u := by
  rw [originVertex]
  split <;> simp

/-- No false edge leads to a value. -/
theorem value_not_falseEdges : (s, .value v, w) ∉ falseEdges f := by
  intro h
  have hedge := falseEdge_of_mem h
  generalize hd : Vertex.value v = d at hedge
  cases hedge with
  | operand => exact originVertex_ne_value hd.symm
  | entry | exit | block | effect => cases hd

section

variable (hf : f.WellFormed) (hi : i ∈ f.operations)
include hf hi

/-- An operand that depends on an operation is one of its results. -/
theorem mem_defs_of_originVertex {b : Nat} (h : originVertex f b v = .op i.id) : v ∈ i.defs := by
  rw [originVertex] at h
  split at h
  · next p hp =>
    obtain ⟨hmem, hdef⟩ := FuncOp.mem_of_definingOp hp
    rwa [hf.eq_of_id hi hmem (Vertex.op.inj h).symm]
  · cases h

/-- The false edges to an operation with results are those of its users. -/
theorem user_of_falseEdge (hres : i.results ≠ []) (h : (s, .op i.id, w) ∈ falseEdges f) :
    ∃ o ∈ f.operations, s = .op o.id ∧ ∃ v ∈ o.operands, v ∈ i.defs := by
  have hedge := falseEdge_of_mem h
  generalize hd : Vertex.op i.id = d at hedge
  cases hedge with
  | effect hb ho hnil =>
    have ho := FuncOp.mem_operations.mpr ⟨_, hb, ho⟩
    rw [hf.eq_of_id hi ho (Vertex.op.inj hd)] at hres
    exact absurd hnil hres
  | @operand p o u hb ho hu =>
    exact ⟨o, FuncOp.mem_operations.mpr ⟨_, hb, ho⟩, rfl, u, hu,
      mem_defs_of_originVertex hf hi hd.symm⟩
  | entry | exit | block => cases hd

/-- The graph of a handler holds the event. -/
theorem FuncOp.HoldsEvent.held (hg : buildGraph policy f = some g) (h : f.HoldsEvent g i)
    (hinit : i.isEventInit) (ho : o ∈ f.operations) (hret : o.isReturn) (hv : v ∈ o.operands)
    (hdef : v ∈ i.defs) : g.Held i.id v i.operands.dedup := by
  have hvertex : ∀ b u, operandVertex f b i u = .value u := fun b u => if_neg fun hsink => by
    simp [Operation.isEventInit, hsink] at hinit
  have hreturn : ∀ b u, operandVertex f b o u = .value u := fun b u => if_neg fun hsink => by
    simp [Operation.isReturn, hsink] at hret
  have hres : i.results ≠ [] := by
    rintro hnil
    simp [Operation.defs, hnil] at hdef
  obtain ⟨⟨blk, b⟩, hb, hib⟩ := FuncOp.mem_operations.mp hi
  obtain ⟨⟨blk', b'⟩, hb', hob⟩ := FuncOp.mem_operations.mp ho
  refine ⟨⟨.op o.id, hreturn b' v ▸ operand_edge hg hb' hob hv, return_edge hf hg ho hret⟩,
    fun u hu => hvertex b u ▸ operand_edge hg hb hib (mem_dedup.mp hu), fun s w hs => ?_,
    fun s w u _ => ?_, fun u hu => h.shared u (mem_dedup.mp hu), ?_⟩
  · rcases mem_append.mp hs with hs | hs
    · rw [(buildGraph_eq_some hg).2] at hs
      have hedge := graphEdge_of_mem (mem_writes_of_mem_edges hs)
      generalize hd : Vertex.op i.id = d at hedge
      cases hedge with
      | @start p hp hnil =>
        rw [← hf.eq_of_id hi hp (Vertex.op.inj hd)] at hnil
        exact absurd hnil h.operands
      | @operand b p u hp hu =>
        obtain rfl := hf.eq_of_id hi hp (Vertex.op.inj hd)
        exact Or.inl ⟨u, mem_dedup.mpr hu, hvertex b u⟩
      | arg | blockArg | result | ret => cases hd
    · rw [(buildGraph_eq_some hg).2] at hs
      obtain ⟨p, hp, rfl, u, hu, hui⟩ := user_of_falseEdge hf hi hres hs
      exact Or.inr (return_edge hf hg hp (h.returned u hui p hp hu))
  · rw [(buildGraph_eq_some hg).2]
    exact value_not_falseEdges
  · obtain ⟨w, hw, hle⟩ := h.cost v hdef
    exact ⟨w, hw, Or.inr hle⟩

end

end Handler

end Alkali
