import Alkali.Pipeline.Rounds

/-!
# The vertex that a round collapses

`topological_sort` writes the vertices behind their successors, so that positions decrease along the
edges: the least position is that of a vertex that the other candidates precede.
-/

namespace Alkali

open List Relation CutGraph

section Positions

variable {V : Type*} {r : V → V → Prop} {topo : V → Nat} {u v : V} {cs : List V}

variable (hdec : ∀ a b, r a b → topo b < topo a)
include hdec

/-- Vertices that have all that precede them with them can be moved up. -/
theorem decreasing_ite {p : V → Prop} [DecidablePred p] (hp : ∀ a b, r a b → p b → p a) (n : Nat)
    (a b : V) (h : r a b) :
    (if p b then topo b + n else topo b) < if p a then topo a + n else topo a := by
  have hlt := hdec a b h
  split_ifs with hb ha ha
  · omega
  · exact absurd (hp a b h hb) ha
  · omega
  · exact hlt

variable (hu : u ∈ cs) (h : TransGen r u v)
include hu h

/-- What comes after `u` may have the least positions. -/
theorem exists_argmin_after (hv : v ∈ cs) : ∃ topo' : V → Nat, (∀ a b, r a b → topo' b < topo' a) ∧
      ∃ w ∈ cs.argmin topo', TransGen r u w := by
  classical
  let topo' x := if ¬ TransGen r u x then topo x + (topo v + 1) else topo x
  refine ⟨topo', decreasing_ite hdec (fun a b hab hb ha => hb (ha.tail hab)) _, ?_⟩
  cases hw : cs.argmin topo' with
  | none => exact absurd (argmin_eq_none.mp hw ▸ hu) not_mem_nil
  | some w =>
    refine ⟨w, rfl, by_contra fun hafter => ?_⟩
    have hle := le_of_mem_argmin hv hw
    simp only [topo', if_pos hafter, if_neg (not_not.mpr h)] at hle
    omega

/-- What comes before `v` may have the greatest positions. -/
theorem exists_argmax_before : ∃ topo' : V → Nat, (∀ a b, r a b → topo' b < topo' a) ∧
      ∃ w ∈ cs.argmax topo', TransGen r w v := by
  classical
  obtain ⟨m, hm⟩ := Option.ne_none_iff_exists'.mp
    (mt argmax_eq_none.mp (ne_nil_of_mem hu) : cs.argmax topo ≠ none)
  let topo' x := if TransGen r x v then topo x + (topo m + 1) else topo x
  refine ⟨topo', decreasing_ite hdec (fun a b hab hb => hb.head hab) _, ?_⟩
  cases hw : cs.argmax topo' with
  | none => exact absurd (argmax_eq_none.mp hw ▸ hu) not_mem_nil
  | some w =>
    refine ⟨w, rfl, by_contra fun hbefore => ?_⟩
    have hle := le_of_mem_argmax hu hw
    have hmax := le_of_mem_argmax (argmax_mem hw) hm
    simp only [topo', if_neg hbefore, if_pos h] at hle
    omega

end Positions

/-- `u` comes before `v` in the dependency order of the base graph. -/
def CutGraph.Precedes (g : CutGraph) : Vertex → Vertex → Prop :=
  TransGen fun a b => ∃ w, (a, b, w) ∈ g.adj.edges

section Round

variable (bal : Balance) (weight : Vertex → Int) {g : CutGraph} (φ : g.Flow)

/-- The source side of the round is too light. -/
def Light : Prop := bal.tooLight (g.adj.keys.map (wmap φ weight)).sum (g.adj.keys.map weight).sum

/-- The source side of the round is too heavy. -/
def Heavy : Prop := bal.tooHeavy (g.adj.keys.map (wmap φ weight)).sum (g.adj.keys.map weight).sum

/-- The choice of `v` follows the dependency order: into the source goes a candidate that no other
precedes, into the sink one that no other follows. -/
structure InOrder (v : Vertex) : Prop where
  source : Light bal weight φ → ∀ u ∈ sourceCandidates φ weight, ¬ g.Precedes u v
  sink : ¬ Light bal weight φ → Heavy bal weight φ → ∀ u ∈ sinkCandidates φ weight, ¬ g.Precedes v u

variable {topo : Vertex → Nat} {v : Vertex} {bal weight φ}

theorem collapsed_of_light (h : Light bal weight φ) :
    collapsed bal weight g φ topo = (sourceCandidates φ weight).argmin topo := if_pos h

theorem collapsed_of_heavy (hl : ¬ Light bal weight φ) (h : Heavy bal weight φ) :
    collapsed bal weight g φ topo = (sinkCandidates φ weight).argmax topo :=
  (if_neg hl).trans (if_pos h)

theorem RoundInput.iff_decreasing (input : RoundInput g φ topo) (topo' : Vertex → Nat) :
    RoundInput g φ topo' ↔ ∀ a b, (∃ w, (a, b, w) ∈ g.adj.edges) → topo' b < topo' a :=
  ⟨fun h _ _ ⟨_, he⟩ => h.decreasing _ he,
    fun h => ⟨input.positive, input.maxFlow, fun e he => h e.1 e.2.1 ⟨e.2.2, he⟩⟩⟩

/-- Whatever topological sort the library returns, a round chooses in the dependency order, if and
only if no candidate of its side precedes another one. -/
theorem collapsed_inOrder_iff (input : RoundInput g φ topo) :
    (∀ topo', RoundInput g φ topo' → ∀ v ∈ collapsed bal weight g φ topo', InOrder bal weight φ v) ↔
      (Light bal weight φ → ∀ u ∈ sourceCandidates φ weight, ∀ v ∈ sourceCandidates φ weight,
        ¬ g.Precedes u v) ∧
      (¬ Light bal weight φ → Heavy bal weight φ → ∀ u ∈ sinkCandidates φ weight,
        ∀ v ∈ sinkCandidates φ weight, ¬ g.Precedes u v) := by
  have hdec := (input.iff_decreasing topo).mp input
  simp only [input.iff_decreasing]
  constructor
  · refine fun h => ⟨fun hl u hu v hv huv => ?_, fun hl hh u hu v hv huv => ?_⟩
    · obtain ⟨topo', hdec', w, hw, huw⟩ := exists_argmin_after hdec hu huv hv
      exact (h topo' hdec' w (collapsed_of_light hl ▸ hw)).source hl u hu huw
    · obtain ⟨topo', hdec', w, hw, hwv⟩ := exists_argmax_before hdec hu huv
      exact (h topo' hdec' w (collapsed_of_heavy hl hh ▸ hw)).sink hl hh v hv hwv
  · rintro ⟨hsrc, hsink⟩ topo' - v hv
    refine ⟨fun hl u hu => ?_, fun hl hh u hu => ?_⟩
    · rw [collapsed_of_light hl] at hv
      exact hsrc hl u hu v (argmin_mem hv)
    · rw [collapsed_of_heavy hl hh] at hv
      exact hsink hl hh v (argmax_mem hv) u hu

end Round

/-- An operation that uses the result of another one, both behind the source. -/
def twoTargets : CutGraph where
  adj := ⟨[.globalSource, .op 0, .op 1, .globalSink],
    [(.globalSource, .op 0, 1), (.globalSource, .op 1, 1), (.op 0, .op 1, 5),
      (.op 1, .globalSink, 5)]⟩
  falseEdges := []
  pipelineConstraints := []

def twoTargetsFlow : twoTargets.Flow := fun i => [1, 1, 1, 2].getD i 0

/-- The only topological sort. -/
def twoTargetsTopo : Vertex → Nat
  | .globalSource => 3
  | .op 0 => 2
  | .op 1 => 1
  | _ => 0

theorem twoTargets_input : RoundInput twoTargets twoTargetsFlow twoTargetsTopo := by
  apply RoundInput.of_cut {.globalSource} <;> decide +kernel

/-- Of two candidates the round takes the one that uses the result of the other. -/
theorem collapsed_last_target : RoundInput twoTargets twoTargetsFlow twoTargetsTopo ∧
      balancedRound (.ofTolerance (1 / 2) (1 / 10)) (fun _ => 1) twoTargets twoTargetsFlow
        twoTargetsTopo =
          .again { twoTargets with adj := twoTargets.adj.assign .globalSource (.op 1) infWt } ∧
      .op 0 ∈ sourceCandidates twoTargetsFlow (fun _ => 1) ∧
      twoTargets.Precedes (.op 0) (.op 1) := by
  refine ⟨twoTargets_input, ?_, ?_, .single ⟨5, by decide⟩⟩
  · decide +kernel
  · decide +kernel

theorem collapsed_inOrder_twoTargets : ¬ ∀ topo, RoundInput twoTargets twoTargetsFlow topo →
      ∀ v ∈ collapsed (.ofTolerance (1 / 2) (1 / 10)) (fun _ => 1) twoTargets twoTargetsFlow topo,
        InOrder (.ofTolerance (1 / 2) (1 / 10)) (fun _ => 1) twoTargetsFlow v := by
  intro h
  exact ((collapsed_inOrder_iff twoTargets_input).mp h).1 (by unfold Light; decide +kernel) (.op 0)
    (by decide +kernel) (.op 1) (by decide +kernel) (.single ⟨5, by decide⟩)

end Alkali
