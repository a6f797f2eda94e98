import Alkali.Dialect.Frame
import Alkali.Pipeline.MinCut

/-!
# `functionSplitter`

A handler with one block is cut into a source function, which ends by
generating an event from the transferred values, and a sink function, which
takes these values as its arguments. Erasing an operation or an argument that
is still used is a fatal error, so the splitter may fail.

A transferred value and the block argument that replaces it in the sink have
the same identity here.
-/

namespace Alkali

namespace Block

variable (blk : Block)

/-- A value that does not occur in the block. -/
def freshValue : Value :=
  (blk.args.map Prod.fst ++ blk.operations.flatMap fun o => o.uses ++ o.binds).foldr max 0 + 1

/-- An identity that no operation of the block has. -/
def freshId : OpId :=
  (blk.operations.flatMap fun o => o.id :: o.nested.map PlainOp.id).foldr max 0 + 1

/-- The type of a block argument or a result. -/
def valueType (v : Value) : Ty :=
  ((blk.args ++ blk.operations.flatMap Operation.results).lookup v).getD .none

end Block

namespace PipelineHandler

/-- The operations that the cut leaves to the sink. -/
def sinkOps (f : FuncOp) (S : List Vertex) : List OpId :=
  (f.walk.filter fun o => .op o.id ∉ S).map Operation.id

theorem mem_sinkOps {f : FuncOp} {S : List Vertex} {o : Operation} (ho : o ∈ f.operations) :
    o.id ∈ sinkOps f S ↔ .op o.id ∉ S := by
  simp only [sinkOps, List.mem_map, List.mem_filter, decide_eq_true_eq]
  constructor
  · rintro ⟨p, ⟨_, hp⟩, hid⟩
    rwa [← hid]
  · intro h
    exact ⟨o, ⟨FuncOp.mem_walk.mpr (Or.inl ho), h⟩, rfl⟩

end PipelineHandler

namespace SplitFunction

variable (name : String) (blk : Block) (sinkOps : List OpId)

/-- The operation carries the `sink` attribute. -/
def inSink (o : Operation) : Bool := o.id ∈ sinkOps

/-- The operation that defines the value carries the `sink` attribute; a block
argument is never in the sink. -/
def valueInSink (v : Value) : Bool :=
  blk.operations.any fun o => v ∈ o.defs && inSink sinkOps o

/-- The operands of sink operations that are not defined in the sink. -/
def getValuesToTransfer : List Value :=
  (((blk.operations.filter (inSink sinkOps)).flatMap Operation.operands).filter
    fun v => !valueInSink blk sinkOps v).dedup

/-- The type of the event between the stages. -/
def eventType : Ty :=
  .struct true ((getValuesToTransfer blk sinkOps).map blk.valueType) (name ++ "_sink")

/-- The `InitOp` of the event and the `ReturnOp` that emits it. -/
def createGenerate : List Operation :=
  [.plain ⟨blk.freshId, .init (eventType name blk sinkOps), getValuesToTransfer blk sinkOps,
      [(blk.freshValue, eventType name blk sinkOps)]⟩,
    .plain ⟨blk.freshId + 1, .ret, [blk.freshValue], []⟩]

/-- The operations before the terminator that stay in the source. -/
def sourceOps : List Operation := blk.ops.filter fun o => !inSink sinkOps o

/-- The operations before the terminator that move to the sink. -/
def sinkOpsOf : List Operation := blk.ops.filter (inSink sinkOps)

/-- What a sink operation still uses once the transferred values are replaced. -/
def remainingUses (o : Operation) : List Value :=
  o.uses.filter fun v => v ∉ getValuesToTransfer blk sinkOps

/-- Neither the source operations nor the arguments have uses in the sink. -/
def sinkErasable : Bool :=
  (blk.operations.filter (inSink sinkOps)).all fun o =>
    (remainingUses blk sinkOps o).all fun v =>
      v ∉ blk.args.map Prod.fst &&
        (blk.operations.filter fun d => !inSink sinkOps d).all fun d => v ∉ d.defs

/-- No sink operation has uses in the source. -/
def sourceErasable : Bool :=
  ((blk.operations.filter fun o => !inSink sinkOps o) ++
    createGenerate name blk sinkOps).all fun o =>
      o.uses.all fun v => !valueInSink blk sinkOps v

/-- The terminator, or a new one where the old one belongs to the other side. -/
def termId (keep : Bool) : OpId := if keep then blk.termId else blk.freshId + 2

def sourceFunc : FuncOp where
  name := name ++ "_source"
  blocks := [{
    args := blk.args
    ops := sourceOps blk sinkOps ++ createGenerate name blk sinkOps
    termId := termId blk (blk.termId ∉ sinkOps)
    term := if blk.termId ∉ sinkOps then blk.term else .terminate }]

def sinkFunc : FuncOp where
  name := name ++ "_sink"
  blocks := [{
    args := (getValuesToTransfer blk sinkOps).map fun v => (v, blk.valueType v)
    ops := sinkOpsOf blk sinkOps
    termId := termId blk (blk.termId ∈ sinkOps)
    term := if blk.termId ∈ sinkOps then blk.term else .terminate }]

/-- The source and the sink of a handler; `none` when something that is erased
still has uses. -/
def functionSplitter : Option (FuncOp × FuncOp) :=
  if sinkErasable blk sinkOps && sourceErasable name blk sinkOps then
    some (sourceFunc name blk sinkOps, sinkFunc name blk sinkOps)
  else none

end SplitFunction

/-- An interpretation in which an event gives back what it was made of. -/
structure EventInterp (Val : Type) extends Interp Val where
  fields : Val → List Val
  fields_init : ∀ tys name vs, (eval (.init (.struct true tys name)) vs).map fields = [vs]

/-- Numbers as values: an event is the code of the list of its fields, and the
other operations combine their operands. -/
def EventInterp.nat : EventInterp Nat where
  eval k args :=
    match k with
    | .init _ => [Encodable.encode args]
    | _ => [args.sum + 1]
  truth n := n != 0
  atomic _ old new := old + new
  fields n := ((Encodable.decode n : Option (List Nat))).getD []
  fields_init _ _ vs := by simp

variable {Val : Type} [Inhabited Val] [DecidableEq Val]

/-- Call a function that consists of its entry block. -/
def FuncOp.call (I : Interp Val) (f : FuncOp) (inputs : List Val)
    (cells : Cell → Val → Val) : State Val :=
  exec I events ((f.blocks.head?.map Block.ops).getD [])
    (initialState (f.args.map Prod.fst) inputs cells)

/-- Call the source, then the sink on the event that the source emits last. The
result is the final state of the tables and the other events. -/
def callStages (I : EventInterp Val) (source sink : FuncOp) (inputs : List Val)
    (cells : Cell → Val → Val) : Option ((Cell → Val → Val) × List (Effect Val)) :=
  let s := source.call I.toInterp inputs cells
  match s.trace.getLast? with
  | some (_, [event]) =>
    let t := sink.call I.toInterp (I.fields event) s.cells
    some (t.cells, s.trace.dropLast ++ t.trace)
  | _ => none

end Alkali
