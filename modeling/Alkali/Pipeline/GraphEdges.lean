import Alkali.Pipeline.Rounds

/-!
# The edges of the graph of a handler

The graph that `pipelineHandler` builds is closed, its vertices are the
operations and values of the handler, and the edges that stand for dependencies
are infinite.
-/

namespace Alkali

open List Vertex FuncOp AdjacencyMap

open AdjacencyMap (Write)

namespace FuncOp

variable {f : FuncOp}
variable {o : Operation}

theorem mem_operations : o ∈ f.operations ↔ ∃ p ∈ f.blocks.zipIdx, o ∈ p.1.operations := by
  simp only [operations, mem_flatMap]
  constructor
  · rintro ⟨blk, hblk, ho⟩
    obtain ⟨b, hb⟩ := mem_iff_getElem?.mp hblk
    exact ⟨(blk, b), mk_mem_zipIdx_iff_getElem?.mpr hb, ho⟩
  · rintro ⟨⟨blk, b⟩, hb, ho⟩
    exact ⟨blk, mem_iff_getElem?.mpr ⟨b, mk_mem_zipIdx_iff_getElem?.mp hb⟩, ho⟩

theorem mem_predecessors {b q : Nat} (h : q ∈ f.predecessors b) :
    ∃ blk, (blk, q) ∈ f.blocks.zipIdx := by
  simp only [predecessors, mem_flatMap, mem_filterMap] at h
  obtain ⟨⟨blk, q'⟩, hmem, d, _, hd⟩ := h
  split_ifs at hd
  cases hd
  exact ⟨blk, hmem⟩

/-- The terminator of a predecessor is an operation of the function. -/
theorem exists_op_of_predecessor {b q : Nat} (h : q ∈ f.predecessors b) (d : Block) :
    ∃ o ∈ f.operations, o.id = (f.blocks.getD q d).termId := by
  obtain ⟨blk, hblk⟩ := mem_predecessors h
  have hget : f.blocks.getD q d = blk := by
    rw [getD_eq_getElem?_getD, mk_mem_zipIdx_iff_getElem?.mp hblk, Option.getD_some]
  rw [hget]
  refine ⟨blk.term.toOperation blk.termId, mem_operations.mpr ⟨_, hblk, ?_⟩, ?_⟩
  · exact mem_append_right _ (mem_singleton.mpr rfl)
  · cases blk.term <;> rfl

/-- What the IR guarantees: operations have identities of their own, a value
is defined once, and neither a return nor an operation inside of a guard
defines one. -/
structure WellFormed (f : FuncOp) : Prop where
  ids : (f.operations.map Operation.id ++
    (f.operations.flatMap Operation.nested).map PlainOp.id).Nodup
  defs : (f.operations.flatMap Operation.defs).Nodup
  nested : ∀ o ∈ f.operations, ∀ b ∈ o.nested, b.results = []
  returns : ∀ o ∈ f.operations, o.isReturn → o.results = []

section

variable (h : f.WellFormed) (ho : o ∈ f.operations)
include h ho

variable {p : Operation}

theorem WellFormed.eq_of_id (hp : p ∈ f.operations) (hid : o.id = p.id) : o = p :=
  inj_on_of_nodup_map (nodup_append.mp h.ids).1 ho hp hid

theorem WellFormed.id_ne_nested (hp : p ∈ f.operations) {b : PlainOp} (hb : b ∈ p.nested) :
    o.id ≠ b.id :=
  (nodup_append.mp h.ids).2.2 _ (mem_map_of_mem ho) _
    (mem_map_of_mem (mem_flatMap.mpr ⟨p, hp, hb⟩))

theorem WellFormed.definingOp {v : Value} (hv : v ∈ o.defs) : f.definingOp v = some o := by
  have hsome : (f.definingOp v).isSome := by
    rw [FuncOp.definingOp, find?_isSome]
    exact ⟨o, ho, by simpa using hv⟩
  obtain ⟨p, hp⟩ := Option.isSome_iff_exists.mp hsome
  obtain ⟨hpmem, hvp⟩ := mem_of_definingOp hp
  have hsymm : Std.Symm (Function.onFun List.Disjoint Operation.defs) :=
    ⟨fun _ _ hd => hd.symm⟩
  by_contra hne
  have hop : o ≠ p := by
    rintro rfl
    exact hne hp
  exact (nodup_flatMap.mp h.defs).2.forall ho hpmem hop hv hvp

end

end FuncOp

namespace PipelineHandler

variable {policy : PipelinePolicy} {f : FuncOp}

/-- The ways in which an edge of `myAdjList` comes about. -/
inductive GraphEdge (policy : PipelinePolicy) (f : FuncOp) : Vertex → Vertex → Int → Prop
  | arg {v ty} (h : (v, ty) ∈ f.args) :
      GraphEdge policy f .globalSource (.value v) (policy.typeTransmitCost ty)
  | blockArg {o v b q} (ho : o ∈ f.operations) (hq : q ∈ f.predecessors b) :
      GraphEdge policy f (.op o.id) (.value v) infWt
  | result {o v ty} (ho : o ∈ f.operations) (hr : (v, ty) ∈ o.results) :
      GraphEdge policy f (.op o.id) (.value v) (resultWeight policy o ty)
  | ret {o} (ho : o ∈ f.operations) (hr : o.isReturn) :
      GraphEdge policy f (.op o.id) .globalSink infWt
  | start {o} (ho : o ∈ f.operations) (hnil : o.operands = []) :
      GraphEdge policy f .globalSource (.op o.id) smallWt
  | operand {b o v} (ho : o ∈ f.operations) (hv : v ∈ o.operands) :
      GraphEdge policy f (operandVertex f b o v) (.op o.id) infWt

variable {s d : Vertex} {w : Int} {i : OpId}
variable {b : Nat} {o : Operation} {v : Value}

theorem graphEdge_of_opWrites (ho : o ∈ f.operations)
    (h : Write.edge s d w ∈ opWrites policy f b o) : GraphEdge policy f s d w := by
  rcases mem_append.mp h with h | h
  · split_ifs at h
    · rw [mem_singleton, effectWrite] at h
      split_ifs at h with hret
      cases h
      exact .ret ho hret
    · simp only [resultWrites, mem_map, mem_filter] at h
      obtain ⟨⟨v, ty⟩, ⟨hr, _⟩, heq⟩ := h
      cases heq
      exact .result ho hr
  · rw [operandWrites] at h
    split_ifs at h with hnil
    · rw [mem_singleton] at h
      cases h
      exact .start ho hnil
    · obtain ⟨v, hv, heq⟩ := mem_map.mp h
      cases heq
      exact .operand ho hv

theorem graphEdge_of_mem (h : Write.edge s d w ∈ graphWrites policy f) :
    GraphEdge policy f s d w := by
  simp only [graphWrites, mem_append] at h
  rcases h with ((h | h) | h) | h
  · simp at h
  · simp at h
  · obtain ⟨⟨v, ty⟩, hv, heq⟩ := mem_map.mp h
    cases heq
    exact .arg hv
  · obtain ⟨⟨blk, b⟩, hb, h⟩ := mem_flatMap.mp h
    rcases mem_append.mp h with h | h
    · simp only [argWrites, mem_flatMap, mem_map] at h
      obtain ⟨q, hq, a, _, heq⟩ := h
      cases heq
      obtain ⟨o, ho, hid⟩ := exists_op_of_predecessor hq ⟨[], [], 0, .terminate⟩
      rw [← hid]
      exact .blockArg ho hq
    · obtain ⟨o, ho, h⟩ := mem_flatMap.mp h
      exact graphEdge_of_opWrites (mem_operations.mpr ⟨_, hb, ho⟩) h

/-- The ways in which a false edge comes about. -/
inductive FalseEdge (f : FuncOp) : Vertex → Vertex → Prop
  | entry {p} (hb : p ∈ f.blocks.zipIdx) : FalseEdge f (.blockSource p.2) .globalSource
  | exit {p} (hb : p ∈ f.blocks.zipIdx) : FalseEdge f .globalSink (.blockSink p.2)
  | block {p q} (hb : p ∈ f.blocks.zipIdx) (hq : q ∈ f.predecessors p.2) :
      FalseEdge f (.blockSource p.2) (.blockSink q)
  | effect {p o} (hb : p ∈ f.blocks.zipIdx) (ho : o ∈ p.1.operations) (hnil : o.results = []) :
      FalseEdge f (.blockSink p.2) (.op o.id)
  | operand {p o v} (hb : p ∈ f.blocks.zipIdx) (ho : o ∈ p.1.operations) (hv : v ∈ o.operands) :
      FalseEdge f (.op o.id) (originVertex f p.2 v)

theorem falseEdge_of_opFalseEdges {p : Block × Nat} (hb : p ∈ f.blocks.zipIdx)
    (ho : o ∈ p.1.operations) (h : (s, d, w) ∈ opFalseEdges f p.2 o) : FalseEdge f s d := by
  simp only [opFalseEdges, mem_append] at h
  rcases h with (h | h) | h
  · rw [tableEdges] at h
    split at h
    case h_3 => cases h
    all_goals
      obtain ⟨t, ht, heq⟩ := mem_map.mp h
      cases heq
      exact .operand hb ho (mem_of_mem_head? (Option.mem_toList.mp ht))
  · obtain ⟨hnil, h⟩ := mem_ite_nil_right.mp h
    cases mem_singleton.mp h
    exact .effect hb ho hnil
  · obtain ⟨v, hv, heq⟩ := mem_map.mp h
    cases heq
    exact .operand hb ho hv

theorem falseEdge_of_mem (h : (s, d, w) ∈ falseEdges f) : FalseEdge f s d := by
  rcases mem_append.mp h with h | h
  · obtain ⟨p, hb, h⟩ := mem_flatMap.mp h
    simp only [blockFalseEdges, mem_append, mem_ite_nil_right, mem_singleton] at h
    rcases h with ⟨-, heq⟩ | ⟨-, heq⟩
    · cases heq
      exact .entry hb
    · cases heq
      exact .exit hb
  · obtain ⟨p, hb, h⟩ := mem_flatMap.mp h
    rcases mem_append.mp h with h | h
    · obtain ⟨q, hq, heq⟩ := mem_map.mp h
      cases heq
      exact .block hb hq
    · obtain ⟨o, ho, h⟩ := mem_flatMap.mp h
      exact falseEdge_of_opFalseEdges hb ho h

theorem mem_graphWrites_of_op {blk : Block} (hb : (blk, b) ∈ f.blocks.zipIdx)
    (ho : o ∈ blk.operations) {x : Write Vertex Int} (hx : x ∈ opWrites policy f b o) :
    x ∈ graphWrites policy f := by
  apply mem_append_right
  refine mem_flatMap.mpr ⟨_, hb, mem_append_right _ ?_⟩
  exact mem_flatMap.mpr ⟨o, ho, hx⟩

/-- Every edge from an operand is infinite. -/
theorem infWt_of_operand_edge (h : GraphEdge policy f (operandVertex f b o v) (.op i) w) :
    w = infWt := by
  generalize hs : operandVertex f b o v = s at h
  generalize hd : op i = d at h
  cases h with
  | start =>
    simp only [operandVertex, originVertex] at hs
    split_ifs at hs
    split at hs <;> cases hs
  | operand => rfl
  | arg | blockArg | result | ret => cases hd

/-- Every edge into the sink is infinite. -/
theorem infWt_of_sink_edge (h : GraphEdge policy f s .globalSink w) : w = infWt := by
  generalize hd : globalSink = d at h
  cases h <;> simp_all

/-- The result of an import is never transmitted. -/
theorem infWt_of_import_edge (hf : f.WellFormed) {i : Operation} (hi : i ∈ f.operations)
    (himp : i.isImport) (h : GraphEdge policy f (.op i.id) (.value v) w) : w = infWt := by
  generalize hs : op i.id = s at h
  generalize hd : value v = d at h
  cases h with
  | blockArg => rfl
  | result ho hr =>
    have heq := hf.eq_of_id hi ho (op.inj hs)
    subst heq
    simp [resultWeight, himp]
  | arg | ret | start | operand => simp_all

theorem exists_op_of_edge (h : GraphEdge policy f (.op i) d w) : ∃ o ∈ f.operations, o.id = i := by
  generalize hs : op i = s at h
  cases h with
  | arg | start => cases hs
  | @blockArg o _ _ _ ho | @result o _ _ ho | @ret o ho => exact ⟨o, ho, (op.inj hs).symm⟩
  | @operand b o v ho hv =>
    -- only a `SinkOp` has edges out of an operation, from the one it refers to
    simp only [operandVertex, originVertex] at hs
    split_ifs at hs
    split at hs
    next p hp => exact ⟨p, (mem_of_definingOp hp).1, (op.inj hs).symm⟩
    next => cases hs

theorem exists_op_of_key (h : Write.key (.op i) ∈ graphWrites policy f) :
    ∃ o ∈ f.operations, o.id = i := by
  simp only [graphWrites, mem_append] at h
  rcases h with ((h | h) | h) | h
  · simp at h
  · simp at h
  · simp at h
  · obtain ⟨⟨blk, b⟩, hb, h⟩ := mem_flatMap.mp h
    rcases mem_append.mp h with h | h
    · simp [argWrites] at h
    · obtain ⟨o, ho, h⟩ := mem_flatMap.mp h
      refine ⟨o, mem_operations.mpr ⟨_, hb, ho⟩, ?_⟩
      rcases mem_append.mp h with h | h
      · split_ifs at h
        · rw [mem_singleton, effectWrite] at h
          split_ifs at h
          exact (op.inj (Write.key.inj h)).symm
        · simp [resultWrites] at h
      · rw [operandWrites] at h
        split_ifs at h <;> simp at h

section Build

variable {g : CutGraph}

theorem buildGraph_eq_some (h : buildGraph policy f = some g) : targetsAreKeys g.adj ∧
      g = ⟨.ofWrites (graphWrites policy f), falseEdges f, pipelineConstraints f⟩ := by
  simp only [buildGraph, Bool.and_eq_true] at h
  split_ifs at h with hok
  cases h
  exact ⟨hok.2, rfl⟩

theorem mem_keys_of_write (h : buildGraph policy f = some g) {x : Write Vertex Int}
    (hx : x ∈ graphWrites policy f) : x.vertex ∈ g.adj.keys := by
  rw [(buildGraph_eq_some h).2]
  exact mem_keys_ofWrites.mpr ⟨x, hx, rfl⟩

variable {s d : Vertex} {w : Int} {o : Operation} {blk : Block} {b : Nat}

section

variable (h : buildGraph policy f = some g)
include h

/-- The assertion makes the target of every assigned edge a vertex. -/
theorem mem_keys_of_edge_write (hx : Write.edge s d w ∈ graphWrites policy f) : d ∈ g.adj.keys := by
  obtain ⟨htgts, hg⟩ := buildGraph_eq_some h
  obtain ⟨w', hw'⟩ := exists_mem_edges_of_writes hx
  have hedge : (s, d, w') ∈ g.adj.edges := by rwa [hg]
  simpa using all_eq_true.mp htgts _ hedge

/-- Every operation is a vertex: something leads to it. -/
theorem op_mem_keys (ho : o ∈ f.operations) : op o.id ∈ g.adj.keys := by
  obtain ⟨⟨blk, b⟩, hb, ho⟩ := mem_operations.mp ho
  have hwrite : ∃ s w, Write.edge s (.op o.id) w ∈ operandWrites f b o := by
    rw [operandWrites]
    split_ifs with hnil
    · exact ⟨_, _, mem_singleton.mpr rfl⟩
    · obtain ⟨v, hv⟩ := exists_mem_of_ne_nil _ hnil
      exact ⟨_, _, mem_map.mpr ⟨v, hv, rfl⟩⟩
  obtain ⟨s, w, hmem⟩ := hwrite
  exact mem_keys_of_edge_write h
    (mem_graphWrites_of_op hb ho (mem_append_right _ hmem))

theorem block_mem_keys (hb : (blk, b) ∈ f.blocks.zipIdx) :
    blockSource b ∈ g.adj.keys ∧ blockSink b ∈ g.adj.keys := by
  have hmem : ∀ x ∈ [Write.key (.blockSource b), .key (.blockSink b)],
      x ∈ graphWrites policy f := by
    intro x hx
    refine mem_append_left _ (mem_append_left _ (mem_append_right _ ?_))
    exact mem_flatMap.mpr ⟨_, hb, hx⟩
  exact ⟨mem_keys_of_write h (hmem (.key _) (by simp)),
    mem_keys_of_write h (hmem (.key _) (by simp))⟩

theorem originVertex_mem_keys (hb : (blk, b) ∈ f.blocks.zipIdx)
    (v : Value) : originVertex f b v ∈ g.adj.keys := by
  rw [originVertex]
  split
  next p hp => exact op_mem_keys h (mem_of_definingOp hp).1
  next => exact (block_mem_keys h hb).1

theorem source_sink_mem_keys : globalSource ∈ g.adj.keys ∧ globalSink ∈ g.adj.keys :=
  ⟨mem_keys_of_write (x := .key .globalSource) h (by simp [graphWrites]),
    mem_keys_of_write (x := .key .globalSink) h (by simp [graphWrites])⟩

theorem FalseEdge.ends (he : FalseEdge f s d) : s ∈ g.adj.keys ∧ d ∈ g.adj.keys := by
  cases he with
  | entry hb => exact ⟨(block_mem_keys h hb).1, (source_sink_mem_keys h).1⟩
  | exit hb => exact ⟨(source_sink_mem_keys h).2, (block_mem_keys h hb).2⟩
  | block hb hq =>
    obtain ⟨blk, hb'⟩ := mem_predecessors hq
    exact ⟨(block_mem_keys h hb).1, (block_mem_keys h hb').2⟩
  | effect hb ho =>
    exact ⟨(block_mem_keys h hb).2, op_mem_keys h (mem_operations.mpr ⟨_, hb, ho⟩)⟩
  | operand hb ho =>
    exact ⟨op_mem_keys h (mem_operations.mpr ⟨_, hb, ho⟩), originVertex_mem_keys h hb _⟩

theorem buildGraph_closed : g.Closed where
  source := (source_sink_mem_keys h).1
  sink := (source_sink_mem_keys h).2
  ends s d w he := by
    rcases mem_append.mp he with he | he
    · rw [(buildGraph_eq_some h).2] at he
      have hw := mem_writes_of_mem_edges he
      exact ⟨mem_keys_of_write h hw, mem_keys_of_edge_write h hw⟩
    · rw [(buildGraph_eq_some h).2] at he
      exact (falseEdge_of_mem he).ends h

/-- An edge is infinite when every statement that assigns it says so. -/
theorem inf_edge_of_write (hx : Write.edge s d infWt ∈ graphWrites policy f)
    (hall : ∀ w, GraphEdge policy f s d w → w = infWt) : (s, d, infWt) ∈ g.edges := by
  apply mem_append_left
  rw [(buildGraph_eq_some h).2]
  exact mem_edges_of_writes hx fun w hw => hall w (graphEdge_of_mem hw)

/-- Only the operations of the blocks are vertices. -/
theorem exists_op_of_mem_keys {i : OpId}
    (hi : op i ∈ g.adj.keys) : ∃ o ∈ f.operations, o.id = i := by
  rw [(buildGraph_eq_some h).2] at hi
  obtain ⟨x, hx, hv⟩ := mem_keys_ofWrites.mp hi
  cases x with
  | key v =>
    obtain rfl : v = .op i := hv
    exact exists_op_of_key hx
  | edge s d w =>
    obtain rfl : s = .op i := hv
    exact exists_op_of_edge (graphEdge_of_mem hx)

theorem originVertex_edge (hb : (blk, b) ∈ f.blocks.zipIdx)
    (ho : o ∈ blk.operations) {v : Value} (hv : v ∈ o.operands) :
    (.op o.id, originVertex f b v, infWt) ∈ g.edges := by
  apply mem_append_right
  rw [(buildGraph_eq_some h).2]
  refine mem_append_right _ (mem_flatMap.mpr ⟨_, hb, ?_⟩)
  refine mem_append_right _ (mem_flatMap.mpr ⟨o, ho, ?_⟩)
  exact mem_append_right _ (mem_map.mpr ⟨v, hv, rfl⟩)

end

end Build

end PipelineHandler

end Alkali
