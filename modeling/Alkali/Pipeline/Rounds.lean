import Alkali.Pipeline.MinCut

/-!
# Infinite edges across the rounds of `runBalancedMinCut`

As long as the flow stays below `INF_MIN`, the discovered set is closed under
edges of infinite capacity. A round never removes such an edge, so what the
first graph asks for holds of the cut that the last round returns.
-/

namespace Alkali

open NetworkFlow List AdjacencyMap

namespace CutGraph

variable {g : CutGraph} {φ : g.Flow}
variable {u v : Vertex} {weight : Vertex → Int}

theorem mem_residualSuccs : v ∈ residualSuccs φ u ↔ Residual g.network φ u v := by
  simp only [residualSuccs, Finset.mem_union, Finset.mem_image, Finset.mem_filter,
    Finset.mem_univ, true_and, Residual]
  constructor
  · rintro (⟨i, ⟨hs, hc⟩, hd⟩ | ⟨i, ⟨hd, hp⟩, hs⟩)
    · exact ⟨i, Or.inl ⟨hs, hd, hc⟩⟩
    · exact ⟨i, Or.inr ⟨hd, hs, hp⟩⟩
  · rintro ⟨i, ⟨hs, hd, hc⟩ | ⟨hd, hs, hp⟩⟩
    · exact Or.inl ⟨i, ⟨hs, hc⟩, hd⟩
    · exact Or.inr ⟨i, ⟨hd, hp⟩, hs⟩

/-- Every edge connects vertices of the adjacency map, as `pipelineHandler`
asserts before the first round. -/
structure Closed (g : CutGraph) : Prop where
  source : Vertex.globalSource ∈ g.adj.keys
  sink : Vertex.globalSink ∈ g.adj.keys
  ends : ∀ s d w, (s, d, w) ∈ g.edges → s ∈ g.adj.keys ∧ d ∈ g.adj.keys

section

variable (hg : g.Closed)
include hg

theorem Closed.residual (h : Residual g.network φ u v) : v ∈ g.adj.keys := by
  obtain ⟨i, ⟨_, rfl, _⟩ | ⟨_, rfl, _⟩⟩ := h
  · exact (hg.ends _ _ _ (get_mem g.edges i)).2
  · exact (hg.ends _ _ _ (get_mem g.edges i)).1

theorem mem_reached :
    v ∈ reached φ ↔ Relation.ReflTransGen (Residual g.network φ) .globalSource v := by
  rw [reached, Reachability.mem_search_iff]
  · simp only [mem_residualSuccs]
  · exact mem_toFinset.mpr hg.source
  · intro u _ v hv
    rw [mem_residualSuccs] at hv
    exact mem_toFinset.mpr (hg.residual hv)

theorem mem_keys_of_mem_reached (h : v ∈ reached φ) : v ∈ g.adj.keys := by
  rw [mem_reached hg] at h
  induction h with
  | refl => exact hg.source
  | tail _ r _ => exact hg.residual r

theorem source_mem_reached : Vertex.globalSource ∈ reached φ :=
  (mem_reached hg).mpr .refl

theorem reached_residual (hu : u ∈ reached φ) (h : Residual g.network φ u v) : v ∈ reached φ :=
  (mem_reached hg).mpr (((mem_reached hg).mp hu).tail h)

theorem sink_not_mem_reached (hφ : IsMaxFlow g.network φ) : Vertex.globalSink ∉ reached φ := by
  rw [mem_reached hg]
  exact hφ.sink_not_reachable (by simp [network])

/-- No edge that weighs more than a finite flow leaves its discovered set. -/
theorem reached_of_heavy_edge (hφ : IsMaxFlow g.network φ)
    (hval : value g.network φ < infMin) {w : Int} (he : (u, v, w) ∈ g.edges) (hw : infMin ≤ w)
    (hu : u ∈ reached φ) : v ∈ reached φ := by
  by_contra hv
  obtain ⟨i, hi⟩ := get_of_mem he
  have hcap : g.network.cap i ≤ value g.network φ := by
    apply cap_le_value hφ.toIsFlow (source_mem_reached hg) (sink_not_mem_reached hg hφ)
      (fun u hu v h => reached_residual hg hu h)
    · rw [network_src hi]
      exact hu
    · rw [network_dst hi]
      exact hv
  rw [network_cap hi] at hcap
  omega

/-- An infinite edge never leaves the discovered set of a finite flow. -/
theorem reached_of_inf_edge (hφ : IsMaxFlow g.network φ)
    (hval : value g.network φ < infMin) (he : (u, v, infWt) ∈ g.edges) (hu : u ∈ reached φ) :
    v ∈ reached φ :=
  reached_of_heavy_edge hg hφ hval he (by decide) hu

end

theorem wmap_pos (hw : ∀ v, 1 ≤ weight v) : 0 < wmap φ weight v ↔ v ∈ reached φ := by
  have hv := hw v
  by_cases h : v ∈ reached φ
  · rw [wmap, if_pos h]
    exact ⟨fun _ => h, fun _ => by omega⟩
  · simp [wmap, h]

theorem wmap_eq_zero (hw : ∀ v, 1 ≤ weight v) : wmap φ weight v = 0 ↔ v ∉ reached φ := by
  have hv := hw v
  by_cases h : v ∈ reached φ
  · rw [wmap, if_pos h]
    exact ⟨fun h0 => by omega, fun hn => absurd h hn⟩
  · simp [wmap, h]

theorem mem_keys_of_mem_cutEdges (hg : g.Closed) {e : Vertex × Vertex} (h : e ∈ cutEdges φ weight) :
    e.1 ∈ g.adj.keys ∧ e.2 ∈ g.adj.keys := by
  obtain ⟨⟨s, d, w⟩, he, rfl⟩ := mem_map.mp h
  exact hg.ends s d w (mem_append_left _ (mem_filter.mp he).1)

/-- `g'` differs from `g` only in capacities that became infinite and in
infinite edges between vertices of `g`. -/
structure Extends (g g' : CutGraph) : Prop where
  keys : ∀ v, v ∈ g'.adj.keys ↔ v ∈ g.adj.keys
  inf : ∀ s d, (s, d, infWt) ∈ g.adj.edges → (s, d, infWt) ∈ g'.adj.edges
  closed : g.Closed → g'.Closed
  falseEdges : g'.falseEdges = g.falseEdges
  constraints : g'.pipelineConstraints = g.pipelineConstraints

theorem Extends.inf_edge {g' : CutGraph} (h : Extends g g') {s d : Vertex}
    (he : (s, d, infWt) ∈ g.edges) : (s, d, infWt) ∈ g'.edges := by
  rcases mem_append.mp he with he | he
  · exact mem_append_left _ (h.inf s d he)
  · exact mem_append_right _ (h.falseEdges ▸ he)

/-- Both ways of changing the graph freeze a side and add one infinite edge. -/
theorem extends_freeze_assign {inside : Vertex → Bool} {s d : Vertex}
    (hs : s ∈ g.adj.keys) (hd : d ∈ g.adj.keys) :
    Extends g { g with adj := (freeze (g := g) inside).assign s d infWt } where
  keys v := by
    simp only [mem_keys_assign, freeze, mapWeights]
    constructor
    · rintro (rfl | hv)
      · exact hs
      · exact hv
    · exact Or.inr
  inf s' d' he := by
    rw [mem_edges_assign]
    by_cases hsame : s' = s ∧ d' = d
    · rw [hsame.1, hsame.2]
      exact Or.inl rfl
    · refine Or.inr ⟨hsame, ?_⟩
      rw [freeze, mem_edges_mapWeights]
      exact ⟨infWt, he, by simp⟩
  closed hg := by
    have hkeys : ∀ v ∈ g.adj.keys, v ∈ ((freeze (g := g) inside).assign s d infWt).keys := by
      intro v hv
      rw [mem_keys_assign]
      exact Or.inr hv
    refine ⟨hkeys _ hg.source, hkeys _ hg.sink, ?_⟩
    intro s' d' w' he
    rcases mem_append.mp he with he | he
    · rw [mem_edges_assign] at he
      rcases he with heq | ⟨_, he⟩
      · cases heq
        exact ⟨hkeys _ hs, hkeys _ hd⟩
      · rw [freeze, mem_edges_mapWeights] at he
        obtain ⟨w, he, _⟩ := he
        obtain ⟨h₁, h₂⟩ := hg.ends s' d' w (mem_append_left _ he)
        exact ⟨hkeys _ h₁, hkeys _ h₂⟩
    · obtain ⟨h₁, h₂⟩ := hg.ends s' d' w' (mem_append_right _ he)
      exact ⟨hkeys _ h₁, hkeys _ h₂⟩
  falseEdges := rfl
  constraints := rfl

end CutGraph

open CutGraph

section Round

variable {bal : Balance} {weight : Vertex → Int} {g : CutGraph} {φ : g.Flow}
  {topo : Vertex → Nat}

/-- The vertex that a round chooses for collapsing. -/
def collapsed (bal : Balance) (weight : Vertex → Int) (g : CutGraph) (φ : g.Flow)
    (topo : Vertex → Nat) : Option Vertex :=
  let wmapSum := (g.adj.keys.map (wmap φ weight)).sum
  let totalSum := (g.adj.keys.map weight).sum
  if bal.tooLight wmapSum totalSum then (sourceCandidates φ weight).argmin topo
  else if bal.tooHeavy wmapSum totalSum then (sinkCandidates φ weight).argmax topo
  else none

variable {g' : CutGraph}

/-- A round goes on with one side frozen and one more infinite edge, after a finite flow. -/
theorem balancedRound_eq_again (h : balancedRound bal weight g φ topo = .again g') :
    value g.network φ < infMin ∧ ∃ v, collapsed bal weight g φ topo = some v ∧
      (v ∈ sourceCandidates φ weight ∧ g' = { g with
          adj := (freeze (g := g) fun v => wmap φ weight v ≠ 0).assign .globalSource v infWt } ∨
        v ∈ sinkCandidates φ weight ∧ g' = { g with
          adj := (freeze (g := g) fun v => wmap φ weight v = 0).assign v .globalSink infWt }) := by
  simp only [balancedRound] at h
  split_ifs at h with hval hfire hlight hheavy
  · cases hc : (sourceCandidates φ weight).argmin topo with
    | none => simp [hc] at h
    | some v =>
      simp only [hc, RoundResult.again.injEq] at h
      exact ⟨not_le.mp hval, v, by rw [collapsed, if_pos hlight, hc],
        Or.inl ⟨argmin_mem hc, h.symm⟩⟩
  · cases hc : (sinkCandidates φ weight).argmax topo with
    | none => simp [hc] at h
    | some v =>
      simp only [hc, RoundResult.again.injEq] at h
      exact ⟨not_le.mp hval, v, by rw [collapsed, if_neg hlight, if_pos hheavy, hc],
        Or.inr ⟨argmax_mem hc, h.symm⟩⟩

/-- A round that goes on extends the graph. -/
theorem balancedRound_again (hg : g.Closed) (h : balancedRound bal weight g φ topo = .again g') :
    Extends g g' := by
  obtain ⟨-, v, -, ⟨hv, rfl⟩ | ⟨hv, rfl⟩⟩ := balancedRound_eq_again h
  · obtain ⟨e, he, rfl⟩ := mem_map.mp (mem_filter.mp hv).1
    exact extends_freeze_assign hg.source (mem_keys_of_mem_cutEdges hg he).2
  · obtain ⟨e, he, rfl⟩ := mem_map.mp (mem_filter.mp hv).1
    exact extends_freeze_assign (mem_keys_of_mem_cutEdges hg he).1 hg.sink

/-- A successful round returns the discovered vertices of a finite flow. -/
theorem balancedRound_success (hg : g.Closed) (hw : ∀ v, 1 ≤ weight v)
    {S : List Vertex} (h : balancedRound bal weight g φ topo = .done (.success S)) :
    value g.network φ < infMin ∧ ∀ v, v ∈ S ↔ v ∈ reached φ := by
  simp only [balancedRound] at h
  split_ifs at h with hval
  · cases h
  · cases h
  · split at h <;> cases h
  · split at h <;> cases h
  · simp only [RoundResult.done.injEq, CutResult.success.injEq] at h
    subst h
    refine ⟨by omega, fun v => ?_⟩
    rw [mem_filter, decide_eq_true_iff, wmap_pos hw]
    exact ⟨And.right, fun hv => ⟨mem_keys_of_mem_reached hg hv, hv⟩⟩

/-- The constraint check only fires on a finite flow that cuts a constraint. -/
theorem balancedRound_notPipeline (hw : ∀ v, 1 ≤ weight v)
    (h : balancedRound bal weight g φ topo = .done .notPipeline) :
    value g.network φ < infMin ∧
      ∃ c ∈ g.pipelineConstraints, c.1 ∉ reached φ ∧ c.2 ∈ reached φ := by
  simp only [balancedRound] at h
  split_ifs at h with hval hfire
  · cases h
  · refine ⟨by omega, ?_⟩
    obtain ⟨c, hc, hcut⟩ := any_eq_true.mp hfire
    simp only [Bool.and_eq_true, beq_iff_eq, decide_eq_true_eq] at hcut
    exact ⟨c, hc, (wmap_eq_zero hw).mp hcut.1, (wmap_pos hw).mp hcut.2⟩
  · split at h <;> cases h
  · split at h <;> cases h
  · cases h

end Round

section Runs

variable {bal : Balance} {weight : Vertex → Int} {g : CutGraph}

/-- What the infinite edges of the first graph make of a source set. -/
structure FiniteCut (g : CutGraph) (S : List Vertex) : Prop where
  inf_closed : ∀ u v, (u, v, infWt) ∈ g.edges → u ∈ S → v ∈ S
  sink : Vertex.globalSink ∉ S
  keys : ∀ v ∈ S, v ∈ g.adj.keys

variable {S : List Vertex}

theorem FiniteCut.of_extends {g' : CutGraph} (h : Extends g g') (hS : FiniteCut g' S) :
    FiniteCut g S where
  inf_closed u v he := hS.inf_closed u v (h.inf_edge he)
  sink := hS.sink
  keys v hv := (h.keys v).mp (hS.keys v hv)

/-- A successful run returns a set that no infinite edge of the graph leaves,
however many rounds it takes. -/
theorem RunBalancedMinCut.finiteCut (hg : g.Closed) (hw : ∀ v, 1 ≤ weight v)
    (run : RunBalancedMinCut bal weight g (.success S)) : FiniteCut g S := by
  generalize hr : CutResult.success S = r at run
  induction run with
  | done input h =>
    subst hr
    obtain ⟨hval, hS⟩ := balancedRound_success hg hw h
    constructor
    · intro u v he hu
      rw [hS] at hu ⊢
      exact reached_of_inf_edge hg input.maxFlow hval he hu
    · rw [hS]
      exact sink_not_mem_reached hg input.maxFlow
    · intro v hv
      exact mem_keys_of_mem_reached hg ((hS v).mp hv)
  | again _ h _ ih =>
    have hext := balancedRound_again hg h
    exact (ih (hext.closed hg) hr).of_extends hext

/-- Constraints that are backed by infinite edges are never reported. -/
theorem RunBalancedMinCut.ne_notPipeline (hg : g.Closed) (hw : ∀ v, 1 ≤ weight v)
    (hc : ∀ c ∈ g.pipelineConstraints, c.2 = .globalSink ∨ (c.2, c.1, infWt) ∈ g.edges)
    {r : CutResult} (run : RunBalancedMinCut bal weight g r) : r ≠ .notPipeline := by
  induction run with
  | done input h =>
    rintro rfl
    obtain ⟨hval, c, hmem, hout, hin⟩ := balancedRound_notPipeline hw h
    rcases hc c hmem with hsink | he
    · exact sink_not_mem_reached hg input.maxFlow (hsink ▸ hin)
    · exact hout (reached_of_inf_edge hg input.maxFlow hval he hin)
  | again _ h _ ih =>
    have hext := balancedRound_again hg h
    apply ih (hext.closed hg)
    intro c hmem
    rw [hext.constraints] at hmem
    exact (hc c hmem).imp_right hext.inf_edge

end Runs

end Alkali
