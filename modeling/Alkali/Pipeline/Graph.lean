import Alkali.Dialect.Ops
import Alkali.Library.AdjacencyMap

/-!
# The graph that `pipelineHandler` cuts

Every operation and every value is a vertex. An operation points to the values
it defines with the cost of transmitting them, and a value points to its users
with an infinite weight. False edges run against the dependencies, so that a
cut of finite weight never has a user before its definition.

The statements that fill the adjacency map are listed in the order in which
the source executes them. The false edges and the pipeline constraints are
vectors that are only appended to.
-/

namespace Alkali

open AdjacencyMap (Write)

/-- `vertex_t`: the opaque pointers that the source uses as vertices. -/
inductive Vertex
  | globalSource
  | globalSink
  | blockSource (b : Nat)
  | blockSink (b : Nat)
  | op (id : OpId)
  | value (v : Value)
  deriving DecidableEq, Repr

/-- `INF_WT`. -/
def infWt : Int := 1000000000000000000

/-- `INF_MIN`. -/
def infMin : Int := 100000000000000000

/-- `SMALL_WT`. -/
def smallWt : Int := 1

/-- The virtual methods of `PipelinePolicy` that the cut depends on. -/
structure PipelinePolicy where
  typeTransmitCost : Ty → Int
  operationWeight : Operation → Int
  valueWeight : Value → Int

namespace NetronomeKCutPolicy

mutual

/-- The size of a type in bits; the source supports no other types. -/
def typeTransmitCostRec : Ty → Int
  | .struct _ elementTypes _ => typeTransmitCostSum elementTypes
  | .buffer => 128
  | .table _ _ _ => 64
  | .context => 64
  | .contextRef _ => 64
  | .int width => width
  | .atom => 32
  | _ => 0

def typeTransmitCostSum : List Ty → Int
  | [] => 0
  | ty :: tys => typeTransmitCostRec ty + typeTransmitCostSum tys

end

/-- The policy of the k-way cut, which balances the imported tables. -/
def policy : PipelinePolicy where
  typeTransmitCost ty := 1 + typeTransmitCostRec ty
  operationWeight o := if o.isImport then 100 else 1
  valueWeight _ := 1

theorem one_le_operationWeight (o : Operation) : 1 ≤ policy.operationWeight o := by
  simp only [policy]
  split_ifs <;> decide

theorem one_le_valueWeight (v : Value) : 1 ≤ policy.valueWeight v := by
  simp [policy]

end NetronomeKCutPolicy

/-- The data that `pipelineHandler` hands to `runBalancedMinCut`. -/
structure CutGraph where
  adj : AdjacencyMap Vertex Int
  falseEdges : List (Vertex × Vertex × Int)
  pipelineConstraints : List (Vertex × Vertex)
  deriving DecidableEq

namespace PipelineHandler

variable (policy : PipelinePolicy) (f : FuncOp) (b : Nat)

/-- The vertex that an operand depends on: its defining operation, or the
source vertex of the block for a block argument. -/
def originVertex (v : Value) : Vertex :=
  match f.definingOp v with
  | some p => .op p.id
  | none => .blockSource b

variable (o : Operation)

/-- `GlobalImportOp` results are never transmitted. -/
def resultWeight (ty : Ty) : Int :=
  if o.isImport then infWt else policy.typeTransmitCost ty

/-- Edges from an operation to its used results. -/
def resultWrites : List (Write Vertex Int) :=
  (o.results.filter fun r => !f.useEmpty r.1).map fun r =>
    .edge (.op o.id) (.value r.1) (resultWeight policy o r.2)

/-- The statement for an operation without results. -/
def effectWrite : Write Vertex Int :=
  if o.isReturn then .edge (.op o.id) .globalSink infWt else .key (.op o.id)

/-- The vertex whose edge leads to the user of an operand. A `SinkOp` hangs
off the defining operation itself. -/
def operandVertex (v : Value) : Vertex :=
  if o.kind? = some .sink then originVertex f b v else .value v

/-- Edges from the operands to their user. -/
def operandWrites : List (Write Vertex Int) :=
  if o.operands = [] then [.edge .globalSource (.op o.id) smallWt]
  else o.operands.map fun v => .edge (operandVertex f b o v) (.op o.id) infWt

/-- All statements on `myAdjList` for one operation. -/
def opWrites : List (Write Vertex Int) :=
  (if o.results = [] then [effectWrite o] else resultWrites policy f o) ++ operandWrites f b o

/-- Branch operands become block arguments at an infinite weight. -/
def argWrites (blk : Block) : List (Write Vertex Int) :=
  (f.predecessors b).flatMap fun p =>
    (f.blocks.getD p ⟨[], [], 0, .terminate⟩).termId |> fun t =>
      blk.args.map fun a => .edge (.op t) (.value a.1) infWt

/-- All statements on `myAdjList`, in the order of execution. -/
def graphWrites : List (Write Vertex Int) :=
  [.key .globalSource, .key .globalSink] ++
  (f.blocks.zipIdx.flatMap fun p => [.key (.blockSource p.2), .key (.blockSink p.2)]) ++
  (f.args.map fun a => .edge .globalSource (.value a.1) (policy.typeTransmitCost a.2)) ++
  (f.blocks.zipIdx.flatMap fun p =>
    argWrites f p.2 p.1 ++ p.1.operations.flatMap (opWrites policy f p.2))

/-- A table access is tied to the operation that defines its table. -/
def tableEdges : List (Vertex × Vertex × Int) :=
  match o.kind? with
  | some (.lookup _) | some (.update _) =>
    o.operands.head?.toList.map fun t => (.op o.id, originVertex f b t, infWt)
  | _ => []

/-- The false edges of one operation. -/
def opFalseEdges : List (Vertex × Vertex × Int) :=
  tableEdges f b o ++
  (if o.results = [] then [(.blockSink b, .op o.id, infWt)] else []) ++
  o.operands.map fun v => (.op o.id, originVertex f b v, infWt)

/-- The false edges between the sources and sinks of the blocks. -/
def blockFalseEdges (blk : Block) : List (Vertex × Vertex × Int) :=
  (if f.predecessors b = [] then [(.blockSource b, .globalSource, infWt)] else []) ++
  (if blk.term.successors = [] then [(.globalSink, .blockSink b, infWt)] else [])

def falseEdges : List (Vertex × Vertex × Int) :=
  (f.blocks.zipIdx.flatMap fun p => blockFalseEdges f p.2 p.1) ++
  f.blocks.zipIdx.flatMap fun p =>
    ((f.predecessors p.2).map fun q => (.blockSource p.2, .blockSink q, infWt)) ++
    p.1.operations.flatMap (opFalseEdges f p.2)

/-- The pairs whose first component must not be cut off from the second. -/
def opConstraints : List (Vertex × Vertex) :=
  (if o.results = [] && o.isReturn then [(.op o.id, .globalSink)] else []) ++
  o.operands.map fun v => (originVertex f b v, .op o.id)

def pipelineConstraints : List (Vertex × Vertex) :=
  f.blocks.zipIdx.flatMap fun p => p.1.operations.flatMap (opConstraints f p.2)

/-- The assertion that every table is defined by an operation. -/
def tablesDefined : Bool :=
  f.operations.all fun o =>
    match o.kind? with
    | some (.lookup _) | some (.update _) =>
      o.operands.head?.all fun t => (f.definingOp t).isSome
    | _ => true

/-- The assertion that every edge of `myAdjList` ends in one of its keys. -/
def targetsAreKeys (adj : AdjacencyMap Vertex Int) : Bool :=
  adj.edges.all fun e => e.2.1 ∈ adj.keys

/-- `vtxWeights`: sources and sinks weigh `1`. -/
def vertexWeight : Vertex → Int
  | .value v => policy.valueWeight v
  | .op id =>
    match f.operations.find? fun o => o.id = id with
    | some o => policy.operationWeight o
    | none => 1
  | _ => 1

/-- The graph of a handler; `none` when an assertion of the source fails. -/
def buildGraph : Option CutGraph :=
  let adj := AdjacencyMap.ofWrites (graphWrites policy f)
  if tablesDefined f && targetsAreKeys adj then
    some ⟨adj, falseEdges f, pipelineConstraints f⟩
  else none

end PipelineHandler

end Alkali
