import Alkali.Pipeline.Graph
import Alkali.Library.NetworkFlow
import Alkali.Library.Reachability

/-!
# `runBalancedMinCut`

One round computes a maximum flow, takes the vertices that the residual graph
reaches from the source, and either returns or changes capacities and starts
the next round. The flow and the topological order come from the graph library
and the iteration order is shuffled, so a run may use any maximum flow and any
topological order of the round's graph.
-/

namespace Alkali

/-- The return code of `runBalancedMinCut`, with the source set on success. -/
inductive CutResult
  | success (sourceSet : List Vertex)
  | infFlow
  | srcInfCapPath
  | sinkInfCapPath
  | notPipeline
  deriving DecidableEq

/-- The two comparisons of the source fraction `wmapSum / totalSum` with the
tolerated interval. -/
structure Balance where
  tooLight : Int → Int → Bool
  tooHeavy : Int → Int → Bool

/-- The comparisons for a source weight and a tolerance. -/
def Balance.ofTolerance (sourceWeight tol : Rat) : Balance where
  tooLight wmapSum totalSum := (wmapSum : Rat) / totalSum < sourceWeight * (1 - tol)
  tooHeavy wmapSum totalSum := sourceWeight * (1 + tol) < (wmapSum : Rat) / totalSum

namespace CutGraph

variable (g : CutGraph)

/-- The edges of the boost graph `g`, without their zero-capacity reverses. -/
def edges : List (Vertex × Vertex × Int) := g.adj.edges ++ g.falseEdges

def network : NetworkFlow.Network Vertex (Fin g.edges.length) where
  source := .globalSource
  sink := .globalSink
  src i := (g.edges.get i).1
  dst i := (g.edges.get i).2.1
  cap i := (g.edges.get i).2.2

theorem network_src {g : CutGraph} {i s d w} (h : g.edges.get i = (s, d, w)) :
    g.network.src i = s :=
  congrArg Prod.fst h

theorem network_dst {g : CutGraph} {i s d w} (h : g.edges.get i = (s, d, w)) :
    g.network.dst i = d :=
  congrArg (fun e => e.2.1) h

theorem network_cap {g : CutGraph} {i s d w} (h : g.edges.get i = (s, d, w)) :
    g.network.cap i = w :=
  congrArg (fun e => e.2.2) h

/-- A flow on the edges of one round. -/
abbrev Flow := Fin g.edges.length → Int

variable {g} (φ : g.Flow)

/-- The successors of `u` by edges with a residual capacity. -/
def residualSuccs (u : Vertex) : Finset Vertex :=
  (Finset.univ.filter fun i => g.network.src i = u ∧ φ i < g.network.cap i).image g.network.dst ∪
    (Finset.univ.filter fun i => g.network.dst i = u ∧ 0 < φ i).image g.network.src

/-- The vertices that the depth first search from the source discovers. -/
def reached : Finset Vertex :=
  Reachability.search (residualSuccs φ) g.adj.keys.toFinset .globalSource

/-- The weight of a discovered vertex, and `0` for the others. -/
def wmap (weight : Vertex → Int) (v : Vertex) : Int :=
  if v ∈ reached φ then weight v else 0

/-- The successors of `u` by edges of infinite capacity that are not full. -/
def infSuccs (u : Vertex) : Finset Vertex :=
  (Finset.univ.filter fun i => g.network.src i = u ∧ φ i < g.network.cap i ∧
    g.network.cap i = infWt).image g.network.dst

/-- `inf_path_to_source`. -/
def infPathToSource (v : Vertex) : Bool :=
  v ∈ Reachability.search (infSuccs φ) g.adj.keys.toFinset .globalSource

/-- `inf_path_to_sink`. -/
def infPathToSink (v : Vertex) : Bool :=
  .globalSink ∈ Reachability.search (infSuccs φ) g.adj.keys.toFinset v

/-- The number of edges of `myAdjList` that leave `v`. -/
def outDegree (g : CutGraph) (v : Vertex) : Nat :=
  (g.adj.edges.filter fun e => e.1 = v).length

variable (weight : Vertex → Int)

/-- The cut edges of `myAdjList`. -/
def cutEdges : List (Vertex × Vertex) :=
  (g.adj.edges.filter fun e => wmap φ weight e.1 ≠ 0 ∧ wmap φ weight e.2.1 = 0).map
    fun e => (e.1, e.2.1)

/-- The vertices that may join the source partition. -/
def sourceCandidates : List Vertex :=
  ((cutEdges φ weight).map Prod.snd).filter fun v =>
    v ≠ .globalSink ∧ g.outDegree v = 1 ∧ infPathToSink φ v = false

/-- The vertices that may join the sink partition. -/
def sinkCandidates : List Vertex :=
  ((cutEdges φ weight).map Prod.fst).filter fun v =>
    v ≠ .globalSource ∧ g.outDegree v = 1 ∧ infPathToSource φ v = false

/-- Give every edge whose ends both satisfy `inside` an infinite capacity. -/
def freeze (inside : Vertex → Bool) : AdjacencyMap Vertex Int :=
  g.adj.mapWeights fun s d w => if inside s && inside d && w < infWt then infWt else w

end CutGraph

/-- What a round of the loop leads to. -/
inductive RoundResult
  | done (r : CutResult)
  | again (g : CutGraph)
  deriving DecidableEq

open CutGraph in
/-- One iteration of the loop, for the flow and the topological positions that
the graph library returned. -/
def balancedRound (bal : Balance) (weight : Vertex → Int) (g : CutGraph) (φ : g.Flow)
    (topo : Vertex → Nat) : RoundResult :=
  let w := wmap φ weight
  if infMin ≤ NetworkFlow.value g.network φ then
    .done .infFlow
  else if g.pipelineConstraints.any fun c => w c.1 == 0 && 0 < w c.2 then
    .done .notPipeline
  else
    let wmapSum := (g.adj.keys.map w).sum
    let totalSum := (g.adj.keys.map weight).sum
    if bal.tooLight wmapSum totalSum then
      -- the candidate with the least position joins the source
      match (sourceCandidates φ weight).argmin topo with
      | none => .done .srcInfCapPath
      | some chosen =>
        .again { g with
          adj := (freeze (g := g) fun v => w v ≠ 0).assign .globalSource chosen infWt }
    else if bal.tooHeavy wmapSum totalSum then
      -- the candidate with the greatest position joins the sink
      match (sinkCandidates φ weight).argmax topo with
      | none => .done .sinkInfCapPath
      | some chosen =>
        .again { g with
          adj := (freeze (g := g) fun v => w v = 0).assign chosen .globalSink infWt }
    else .done (.success (g.adj.keys.filter fun v => 0 < w v))

/-- What the library guarantees for a round whose assertion on the weights
holds: a maximum flow, and positions that decrease along every edge. -/
structure RoundInput (g : CutGraph) (φ : g.Flow) (topo : Vertex → Nat) : Prop where
  positive : ∀ e ∈ g.adj.edges, 0 < e.2.2
  maxFlow : NetworkFlow.IsMaxFlow g.network φ
  decreasing : ∀ e ∈ g.adj.edges, topo e.2.1 < topo e.1

/-- A flow that fills a cut is a maximum one. -/
theorem RoundInput.of_cut {g : CutGraph} {φ : g.Flow} {topo : Vertex → Nat} (S : Finset Vertex)
    (hpositive : ∀ e ∈ g.adj.edges, 0 < e.2.2)
    (hends : ∀ k, g.network.src k ∈ g.adj.keys.toFinset ∧ g.network.dst k ∈ g.adj.keys.toFinset)
    (hcap : ∀ k, 0 ≤ φ k ∧ φ k ≤ g.network.cap k)
    (hcons : ∀ v ∈ g.adj.keys.toFinset, v ≠ .globalSource → v ≠ .globalSink →
      NetworkFlow.excess g.network φ v = 0)
    (hcut : .globalSource ∈ S ∧ .globalSink ∉ S ∧
      NetworkFlow.cutCapacity g.network S ≤ NetworkFlow.value g.network φ)
    (hdecreasing : ∀ e ∈ g.adj.edges, topo e.2.1 < topo e.1) : RoundInput g φ topo where
  positive := hpositive
  maxFlow := NetworkFlow.isMaxFlow_of_cut (NetworkFlow.isFlow_of_ends _ hends hcap hcons)
    hcut.1 hcut.2.1 hcut.2.2
  decreasing := hdecreasing

/-- The runs of `runBalancedMinCut` that return. -/
inductive RunBalancedMinCut (bal : Balance) (weight : Vertex → Int) : CutGraph → CutResult → Prop
  | done {g φ topo r} (input : RoundInput g φ topo)
      (h : balancedRound bal weight g φ topo = .done r) :
      RunBalancedMinCut bal weight g r
  | again {g φ topo g' r} (input : RoundInput g φ topo)
      (h : balancedRound bal weight g φ topo = .again g')
      (rest : RunBalancedMinCut bal weight g' r) :
      RunBalancedMinCut bal weight g r

/-- `pipelineHandler` accepts a source set when its assertions hold and some run
of the cut returns it. -/
def PipelineHandler.Accepts (policy : PipelinePolicy) (bal : Balance) (f : FuncOp)
    (S : List Vertex) : Prop :=
  ∃ g, buildGraph policy f = some g ∧ RunBalancedMinCut bal (vertexWeight policy f) g (.success S)

end Alkali
