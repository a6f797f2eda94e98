import Alkali.Library.FuelLoop
import Alkali.Mapping.Generation
import Alkali.Mapping.Performance

/-!
# `optimizationLoop`

The loop maps a pipeline, cuts its bottleneck and tries the new pipeline, until the
latency is not better. `PipelineMapper` keeps the best pipeline, and `finalize`
deletes the other handlers. Every function that the search makes and does not delete
stays in the module until then.

`pipelineHandler` is random, so that the outcome of its calls is a parameter.
-/

namespace Alkali

open SplitFunction

/-- The operations of all blocks as one block, with the terminator of the last one. -/
def FuncOp.flatBlock (f : FuncOp) : Block where
  args := f.args
  ops := f.operations.dropLast
  termId := (f.blocks.getLast?.map Block.termId).getD 0
  term := (f.blocks.getLast?.map Block.term).getD .terminate

/-- What `pipelineHandler` does with a stage. With a cut comes the order in which a
map of functions lists the two stages. -/
inductive CutOutcome
  | assertion
  | failed
  | cut (sinkOps : List OpId) (sinkFirst : Bool)
  deriving DecidableEq, Repr

/-- The outcome of each call of `pipelineHandler`, with the source weight and the
tolerance of its policy in tenths. -/
abbrev Cutter := Nat → Nat × Nat → FuncOp → CutOutcome

/-- The functions of the module, and the number of calls of `pipelineHandler`. -/
structure Search where
  module : List ModuleFunc
  calls : Nat

/-- An identity that no function of the module has. -/
def freshFuncId (m : List ModuleFunc) : FuncId := (m.map ModuleFunc.id).foldr max 0 + 1

/-- New functions are inserted before the one that they are made from. -/
def insertBefore (f : ModuleFunc) (new m : List ModuleFunc) : List ModuleFunc :=
  m.flatMap fun g => if g.id = f.id then new ++ [g] else [g]

def eraseFuncs (fs m : List ModuleFunc) : List ModuleFunc :=
  m.filter fun g => g.id ∉ fs.map ModuleFunc.id

/-- The stages that a cut makes of a function. -/
def cutStages (m : List ModuleFunc) (f : ModuleFunc) (bodies : FuncOp × FuncOp) :
    ModuleFunc × ModuleFunc :=
  f.splitInto (freshFuncId m) (freshFuncId m + 1) bodies.1 bodies.2

section Search

variable (cutter : Cutter)

/-- `stepSearch` for one function; `none` when an assertion fails or something that is
erased still has uses. -/
def stepSearch (σ : Search) (param : Nat × Nat) (f : ModuleFunc) :
    Option (Search × List ModuleFunc) :=
  match cutter σ.calls param f.func with
  | .assertion => none
  | .failed => some (⟨σ.module, σ.calls + 1⟩, [f])
  | .cut sinkOps sinkFirst =>
    (functionSplitter f.func.name f.func.flatBlock sinkOps).map fun bodies =>
      let (source, sink) := cutStages σ.module f bodies
      (⟨insertBefore f [source, sink] σ.module, σ.calls + 1⟩,
        if sinkFirst then [sink, source] else [source, sink])

/-- The pairs of a source weight and a tolerance that `tableCut` tries, in tenths. -/
def cutParams : List (Nat × Nat) :=
  ((List.range 6).reverse.flatMap fun j => (List.range' 1 (j - 1)).map fun i => (j, i)) ++
    (List.range' 1 5).map fun i => (i, i)

/-- Cut until one of the functions has clean tables; the stages of other cuts are
erased. -/
def tableCutFrom (f : ModuleFunc) :
    List (Nat × Nat) → Search → Option (Search × Option (List ModuleFunc))
  | [], σ => some (σ, none)
  | param :: params, σ =>
    (stepSearch cutter σ param f).bind fun (σ', funcs) =>
      if funcs.any fun g => isTableClean g.func then some (σ', some funcs)
      else if 1 < funcs.length then
        tableCutFrom f params { σ' with module := eraseFuncs funcs σ'.module }
      else tableCutFrom f params σ'

def tableCut (f : ModuleFunc) (σ : Search) : Option (Search × Option (List ModuleFunc)) :=
  tableCutFrom cutter f cutParams σ

/-- `BottleneckExplorer::next` -/
def next (pipeline : List ModuleFunc) (bottleneckIndex : Nat) (σ : Search) :
    Option (Search × List (List ModuleFunc)) :=
  (pipeline[bottleneckIndex]?).bind fun f =>
    (tableCut cutter f σ).map fun (σ', result) =>
      (σ', result.toList.map fun newFuncs =>
        pipeline.take bottleneckIndex ++ newFuncs ++ pipeline.drop (bottleneckIndex + 1))

end Search

/-- The best pipeline so far with its mapping. -/
structure PipelineMapper where
  functions : List ModuleFunc
  mappingResult : MappingResult

namespace PipelineMapper

variable (M : PerformanceModel)

/-- There is no pipeline at first, and a bound for the latency. -/
def start : PipelineMapper := ⟨[], ⟨M.getLatencyTarget + 1000, 0, fun _ => []⟩⟩

variable (mapper : PipelineMapper)

/-- Map a pipeline and keep it if it is better; `none` if `getMapping` divides by zero. -/
def tryMap (pipeline : List ModuleFunc) : Option (Bool × PipelineMapper) :=
  (M.getMapping (pipeline.map ModuleFunc.func)).map fun result =>
    if result.latency < mapper.mappingResult.latency then (true, ⟨pipeline, result⟩)
    else (false, mapper)

/-- The attribute `instances` of a function of the best pipeline. -/
def instances (f : ModuleFunc) : Option (List String) :=
  if f.id ∈ mapper.functions.map ModuleFunc.id then
    some (mapper.mappingResult.unitMap ((mapper.functions.map ModuleFunc.id).idxOf f.id))
  else f.instances

/-- `finalize`: delete the handlers that are not in the best pipeline. -/
def finalize (m : List ModuleFunc) : List ModuleFunc :=
  (m.filter fun f => !f.isStage || f.id ∈ mapper.functions.map ModuleFunc.id).map fun f =>
    { f with instances := mapper.instances f }

end PipelineMapper

/-- `PIPELINE_EXTRA_SEARCH` -/
def pipelineExtraSearch : Nat := 1

structure LoopState where
  pipelines : List (List ModuleFunc)
  numNonOpts : Nat
  mapper : PipelineMapper
  search : Search

section Loop

variable (M : PerformanceModel) (cutter : Cutter)

/-- One iteration of the loop. -/
def loopStep (σ : LoopState) : Option ((PipelineMapper × List ModuleFunc) ⊕ LoopState) :=
  match σ.pipelines with
  | [] => some (.inl (σ.mapper, σ.search.module))
  | pipeline :: pipelines =>
    (σ.mapper.tryMap M pipeline).bind fun (updated, mapper) =>
      let numNonOpts := if updated then 0 else σ.numNonOpts + 1
      if numNonOpts ≥ pipelineExtraSearch then some (.inl (mapper, σ.search.module))
      else
        (next cutter pipeline mapper.mappingResult.bottleneckIndex σ.search).map
          fun (search, nexts) => .inr ⟨pipelines ++ nexts, numNonOpts, mapper, search⟩

/-- The state in which the loop starts. -/
def loopStart (f : ModuleFunc) (m : List ModuleFunc) : LoopState :=
  ⟨[[f]], 0, .start M, ⟨m, 0⟩⟩

/-- The mapper and the module after the loop. -/
def optimizationLoop (n : Nat) (f : ModuleFunc) (m : List ModuleFunc) :
    Option (PipelineMapper × List ModuleFunc) :=
  FuelLoop.run (loopStep M cutter) n (loopStart M f m)

end Loop

end Alkali
