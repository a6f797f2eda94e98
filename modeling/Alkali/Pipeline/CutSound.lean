import Alkali.Pipeline.GraphEdges

/-!
# What a successful cut of a handler guarantees

The infinite edges of the graph keep the definition of an operand before its
users, an imported table beside the operations that access it, and the returns
in the sink. All of this is about the operands of the operations themselves:
what stands inside of a guard is no vertex of the graph.
-/

namespace Alkali

open List NetronomeKCutPolicy FuncOp

open AdjacencyMap (Write)

/-- The guarantees of a cut for the operations `ops`. -/
structure CutSound (ops : List Operation) (S : List Vertex) : Prop where
  /-- The source side is closed under definitions. -/
  defs : ∀ o ∈ ops, .op o.id ∈ S → ∀ v ∈ o.operands, ∀ d ∈ ops, v ∈ d.defs → .op d.id ∈ S
  /-- The users of an import are on its side. -/
  imports : ∀ i ∈ ops, i.isImport → ∀ v ∈ i.defs, ∀ o ∈ ops, v ∈ o.operands →
    (.op o.id ∈ S ↔ .op i.id ∈ S)
  /-- Every return is in the sink. -/
  returns : ∀ o ∈ ops, o.isReturn → .op o.id ∉ S

namespace FuncOp

/-- Every value that an operation defines is used. -/
def NoDeadOps (f : FuncOp) : Prop :=
  ∀ o ∈ f.operations, ∀ v ∈ o.defs, f.useEmpty v = false

/-- There is one `GlobalImportOp` for a table. -/
def OneImportPerTable (f : FuncOp) : Prop :=
  ∀ i ∈ f.operations, ∀ j ∈ f.operations, i.isImport → j.kind? = i.kind? → j = i

end FuncOp

/-- No guard has an operation on an imported value inside. -/
def NoGuardedImports (f : FuncOp) : Prop :=
  ∀ i ∈ f.operations, i.isImport → ∀ v ∈ i.defs, ∀ o ∈ f.operations, v ∉ o.nestedOperands

namespace PipelineHandler

variable {policy : PipelinePolicy} {f : FuncOp} {g : CutGraph} {S : List Vertex}
variable {v : Value} {o : Operation}

theorem originVertex_of_def (hf : f.WellFormed) {d : Operation} (hd : d ∈ f.operations)
    (hv : v ∈ d.defs) (b : Nat) : originVertex f b v = .op d.id := by
  rw [originVertex, hf.definingOp hd hv]

theorem operand_edge (h : buildGraph policy f = some g) {blk : Block} {b : Nat}
    (hb : (blk, b) ∈ f.blocks.zipIdx) (ho : o ∈ blk.operations) (hv : v ∈ o.operands) :
    (operandVertex f b o v, .op o.id, infWt) ∈ g.edges := by
  refine inf_edge_of_write h (mem_graphWrites_of_op hb ho (mem_append_right _ ?_))
    fun w => infWt_of_operand_edge
  rw [operandWrites, if_neg (ne_nil_of_mem hv)]
  exact mem_map.mpr ⟨v, hv, rfl⟩

/-- The edge from an import to its result is infinite. -/
theorem import_edge (hf : f.WellFormed) (h : buildGraph policy f = some g) {i : Operation}
    (hi : i ∈ f.operations) (himp : i.isImport) (hv : v ∈ i.defs) (ho : o ∈ f.operations)
    (hvo : v ∈ o.operands) : (.op i.id, .value v, infWt) ∈ g.edges := by
  obtain ⟨⟨blk, b⟩, hb, hib⟩ := mem_operations.mp hi
  obtain ⟨⟨v', ty⟩, hr, rfl⟩ := mem_map.mp hv
  have huse := useEmpty_eq_false ho (Operation.mem_uses.mpr (Or.inl hvo))
  refine inf_edge_of_write h (mem_graphWrites_of_op hb hib (mem_append_left _ ?_))
    fun w => infWt_of_import_edge hf hi himp
  rw [if_neg (ne_nil_of_mem hr)]
  refine mem_map.mpr ⟨(v', ty), mem_filter.mpr ⟨hr, by simp [huse]⟩, ?_⟩
  simp [resultWeight, himp]

/-- The edge from a return to the sink is infinite. -/
theorem return_edge (hf : f.WellFormed) (h : buildGraph policy f = some g) (ho : o ∈ f.operations)
    (hret : o.isReturn) : (.op o.id, .globalSink, infWt) ∈ g.edges := by
  obtain ⟨⟨blk, b⟩, hb, hob⟩ := mem_operations.mp ho
  refine inf_edge_of_write h (mem_graphWrites_of_op hb hob (mem_append_left _ ?_))
    fun w => infWt_of_sink_edge
  rw [if_pos (hf.returns o ho hret), effectWrite, if_pos hret]
  exact mem_singleton.mpr rfl

theorem nested_operands {p : Operation} {b : PlainOp} (hb : b ∈ p.nested) :
    b.operands = p.nestedOperands := by
  cases p with
  | plain op => cases hb
  | guard i ps as body => rw [mem_singleton.mp hb]; rfl

section

variable (hf : f.WellFormed) (h : buildGraph policy f = some g) (hS : FiniteCut g S)
include hf h hS

/-- A definition stays on the source side of its users. -/
theorem def_mem_source {d : Operation} (ho : o ∈ f.operations) (hoS : .op o.id ∈ S)
    (hv : v ∈ o.operands)
    (hd : d ∈ f.operations) (hvd : v ∈ d.defs) : .op d.id ∈ S := by
  obtain ⟨⟨blk, b⟩, hb, hob⟩ := mem_operations.mp ho
  have hedge := originVertex_edge h hb hob hv
  rw [originVertex_of_def hf hd hvd] at hedge
  exact hS.inf_closed _ _ hedge hoS

/-- The users of an import follow it to the source side. -/
theorem user_mem_source {i : Operation} (hi : i ∈ f.operations) (himp : i.isImport)
    (hiS : .op i.id ∈ S) (hv : v ∈ i.defs) (ho : o ∈ f.operations) (hvo : v ∈ o.operands) :
    .op o.id ∈ S := by
  obtain ⟨⟨blk, b⟩, hb, hob⟩ := mem_operations.mp ho
  have hedge := operand_edge h hb hob hvo
  by_cases hsink : o.kind? = some .sink
  · -- a `SinkOp` hangs off the import itself
    rw [operandVertex, if_pos hsink, originVertex_of_def hf hi hv] at hedge
    exact hS.inf_closed _ _ hedge hiS
  · rw [operandVertex, if_neg hsink] at hedge
    exact hS.inf_closed _ _ hedge
      (hS.inf_closed _ _ (import_edge hf h hi himp hv ho hvo) hiS)

theorem return_not_mem_source (ho : o ∈ f.operations) (hret : o.isReturn) : .op o.id ∉ S :=
  fun hoS => hS.sink (hS.inf_closed _ _ (return_edge hf h ho hret) hoS)

/-- A cut of finite weight is sound for the operations of the blocks. -/
theorem cutSound_operations : CutSound f.operations S where
  defs _ ho hoS _ hv _ hd hvd := def_mem_source hf h hS ho hoS hv hd hvd
  imports _ hi himp _ hv _ ho hvo :=
    ⟨fun hoS => def_mem_source hf h hS ho hoS hvo hi hv,
      fun hiS => user_mem_source hf h hS hi himp hiS hv ho hvo⟩
  returns _ ho hret := return_not_mem_source hf h hS ho hret

/-- An operation inside of a guard is never in the source set. -/
theorem nested_not_mem_source {p : Operation} (hp : p ∈ f.operations) {b : PlainOp}
    (hb : b ∈ p.nested) : .op b.id ∉ S := by
  intro hbS
  obtain ⟨o, ho, hid⟩ := exists_op_of_mem_keys h (hS.keys _ hbS)
  exact hf.id_ne_nested ho hp hb hid

/-- Without imported values inside of guards the cut is sound for all
operations of the handler. -/
theorem cutSound_walk (hg : NoGuardedImports f) : CutSound f.walk S := by
  have htop := cutSound_operations hf h hS
  constructor
  · intro o ho hoS v hv d hd hvd
    rcases mem_walk.mp ho with ho | ⟨p, hp, b, hb, rfl⟩
    · rcases mem_walk.mp hd with hd | ⟨p, hp, b, hb, rfl⟩
      · exact htop.defs o ho hoS v hv d hd hvd
      · simp [hf.nested p hp b hb] at hvd
    · exact absurd hoS (nested_not_mem_source hf h hS hp hb)
  · intro i hi himp v hv o ho hvo
    rcases mem_walk.mp hi with hi | ⟨p, hp, b, hb, rfl⟩
    · rcases mem_walk.mp ho with ho | ⟨p, hp, b, hb, rfl⟩
      · exact htop.imports i hi himp v hv o ho hvo
      · rw [Operation.operands_plain, nested_operands hb] at hvo
        exact absurd hvo (hg i hi himp v hv p hp)
    · simp [hf.nested p hp b hb] at hv
  · intro o ho hret
    rcases mem_walk.mp ho with ho | ⟨p, hp, b, hb, rfl⟩
    · exact htop.returns o ho hret
    · exact nested_not_mem_source hf h hS hp hb

end

/-- The constraints repeat what the infinite edges say. -/
theorem constraints_backed (h : buildGraph policy f = some g) :
    ∀ c ∈ g.pipelineConstraints, c.2 = .globalSink ∨ (c.2, c.1, infWt) ∈ g.edges := by
  intro c hc
  rw [(buildGraph_eq_some h).2] at hc
  obtain ⟨⟨blk, b⟩, hb, hc⟩ := mem_flatMap.mp hc
  obtain ⟨o, ho, hc⟩ := mem_flatMap.mp hc
  rcases mem_append.mp hc with hc | hc
  · split_ifs at hc
    · rw [mem_singleton.mp hc]
      exact Or.inl rfl
    · cases hc
  · obtain ⟨v, hv, rfl⟩ := mem_map.mp hc
    exact Or.inr (originVertex_edge h hb ho hv)

theorem vertexWeight_pos (hop : ∀ o, 1 ≤ policy.operationWeight o)
    (hval : ∀ v, 1 ≤ policy.valueWeight v) (v : Vertex) : 1 ≤ vertexWeight policy f v := by
  cases v with
  | value v => exact hval v
  | op i =>
    rw [vertexWeight]
    split
    · exact hop _
    · exact le_rfl
  | globalSource | globalSink | blockSource | blockSink => exact le_rfl

end PipelineHandler

open PipelineHandler

/-- Every run of the balanced cut on the graph of a handler: the check of the
pipeline constraints never fires, and the source set that a successful run
returns keeps definitions before uses, imports beside their users and returns
in the sink. -/
theorem runBalancedMinCut_sound {policy : PipelinePolicy} {f : FuncOp} {g : CutGraph}
    {bal : Balance} {r : CutResult} (hf : f.WellFormed) (hguard : NoGuardedImports f)
    (hop : ∀ o, 1 ≤ policy.operationWeight o) (hval : ∀ v, 1 ≤ policy.valueWeight v)
    (h : buildGraph policy f = some g)
    (run : RunBalancedMinCut bal (vertexWeight policy f) g r) :
    r ≠ .notPipeline ∧ ∀ S, r = .success S → CutSound f.walk S := by
  have hg := buildGraph_closed h
  have hw := vertexWeight_pos (f := f) hop hval
  refine ⟨run.ne_notPipeline hg hw (constraints_backed h), ?_⟩
  rintro S rfl
  exact cutSound_walk hf h (run.finiteCut hg hw) hguard

/-- A block that looks its input up in `flows`, the result in `rules`, and
guards one operation by the outcome. -/
def cacheBlock (guarded : PlainOp) : Block where
  args := [(0, .int 64)]
  ops := [
    .plain ⟨10, .globalImport "flows", [], [(1, .table (.int 64) (.int 32) 16)]⟩,
    .plain ⟨11, .lookup "flows", [1, 0], [(2, .int 32)]⟩,
    .plain ⟨12, .globalImport "rules", [], [(3, .table (.int 32) (.int 64) 16)]⟩,
    .plain ⟨13, .lookup "rules", [3, 2], [(4, .int 64)]⟩,
    .plain ⟨14, .compute "cmp", [4], [(5, .int 1)]⟩,
    .plain ⟨15, .init (.struct true [.int 64] "NET_SEND"), [4],
      [(6, .struct true [.int 64] "NET_SEND")]⟩,
    .guard 16 [5] [true] guarded,
    .plain ⟨18, .ret, [6], []⟩]
  termId := 19
  term := .terminate

def cacheHandler (guarded : PlainOp) : FuncOp where
  name := "__handler_NET_RECV"
  blocks := [cacheBlock guarded]

/-- A guarded return of the event. -/
def guardedReturn : PlainOp := ⟨17, .ret, [6], []⟩

/-- A guarded update of the table that the first lookup reads. -/
def guardedUpdate : PlainOp := ⟨17, .update "flows", [1, 0, 4], []⟩

/-- The graph does not depend on the guarded operation. -/
def cacheGraph : CutGraph where
  adj := .ofWrites (graphWrites policy (cacheHandler guardedReturn))
  falseEdges := falseEdges (cacheHandler guardedReturn)
  pipelineConstraints := pipelineConstraints (cacheHandler guardedReturn)

def cacheFlow : cacheGraph.Flow := fun i =>
  if i.val ∈ [8, 13, 15, 18] then 33
  else if i.val ∈ [9, 11, 12] then 1
  else if i.val ∈ [1, 2, 4, 5, 10] then 34
  else 0

def cacheTopo : Vertex → Nat
  | .globalSource => 12
  | .op 10 => 11
  | .value 0 | .value 1 => 10
  | .op 11 => 9
  | .value 2 | .op 12 => 8
  | .value 3 => 7
  | .op 13 => 6
  | .value 4 => 5
  | .op 14 | .op 15 => 4
  | .value 5 | .value 6 => 3
  | .op 16 | .op 18 => 2
  | .globalSink => 1
  | _ => 0

/-- The first lookup and its table, with the terminator. -/
def cacheSource : List Vertex :=
  [.op 19, .value 0, .value 1, .op 11, .op 10, .blockSource 0, .globalSource]

theorem cacheFlow_input : RoundInput cacheGraph cacheFlow cacheTopo := by
  apply RoundInput.of_cut cacheSource.toFinset <;> decide +kernel

variable {guarded : PlainOp}

/-- The policy with two stages and its default tolerance cuts after the first
lookup. -/
theorem cacheHandler_run (h : guarded = guardedReturn ∨ guarded = guardedUpdate) :
    buildGraph policy (cacheHandler guarded) = some cacheGraph ∧
      RunBalancedMinCut (.ofTolerance (1 / 2) (1 / 10))
        (vertexWeight policy (cacheHandler guarded)) cacheGraph
        (.success cacheSource) := by
  rcases h with rfl | rfl <;>
  exact ⟨by decide +kernel, .done cacheFlow_input (by decide +kernel)⟩

theorem cacheHandler_wellFormed (h : guarded = guardedReturn ∨ guarded = guardedUpdate) :
    (cacheHandler guarded).WellFormed := by
  rcases h with rfl | rfl <;> exact ⟨by decide, by decide, by decide, by decide⟩

theorem runBalancedMinCut_sound_cacheHandler :
    CutSound (cacheHandler guardedReturn).walk cacheSource :=
  have hrun := cacheHandler_run (Or.inl rfl)
  (runBalancedMinCut_sound (cacheHandler_wellFormed (Or.inl rfl))
    (by unfold NoGuardedImports; decide) one_le_operationWeight
    one_le_valueWeight hrun.1 hrun.2).2 cacheSource rfl

/-- A guarded update of `flows` ends up in the sink although the import of
`flows` is in the source. -/
theorem runBalancedMinCut_splits_guarded_import :
    (cacheHandler guardedUpdate).WellFormed ∧ (cacheHandler guardedUpdate).NoDeadOps ∧
      (cacheHandler guardedUpdate).OneImportPerTable ∧
      (∀ o, 1 ≤ policy.operationWeight o) ∧
      (∀ v, 1 ≤ policy.valueWeight v) ∧
      ((cacheGraph.edges.map fun e => e.2.2).filter (· < infWt)).sum < infMin ∧
      Accepts policy (.ofTolerance (1 / 2) (1 / 10))
        (cacheHandler guardedUpdate) cacheSource ∧
      ¬ CutSound (cacheHandler guardedUpdate).walk cacheSource := by
  refine ⟨cacheHandler_wellFormed (Or.inr rfl), by unfold FuncOp.NoDeadOps; decide,
    by unfold FuncOp.OneImportPerTable; decide, one_le_operationWeight,
    one_le_valueWeight, by decide +kernel,
    ⟨cacheGraph, cacheHandler_run (Or.inr rfl)⟩, ?_⟩
  intro hsound
  have hsame := hsound.imports
    (.plain ⟨10, .globalImport "flows", [], [(1, .table (.int 64) (.int 32) 16)]⟩)
    (by decide) (by decide) 1 (by decide) (.plain guardedUpdate) (by decide) (by decide)
  exact absurd hsame (by decide)

end Alkali
