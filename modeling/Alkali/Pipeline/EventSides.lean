import Alkali.Pipeline.HeldEvents
import Alkali.Pipeline.Split

/-!
# Events and their returns

A `ReturnOp` has to find the `InitOp` of its event in its own stage. The cut does not
ask for that: an event has a cost of transmission like any other value. The cut keeps
an event with its returns if its operands are no more expensive.
-/

namespace Alkali

open PipelineHandler SplitFunction List NetronomeKCutPolicy

/-- `r` returns the event of `i`, under a guard or not. -/
def FuncOp.ReturnsEventOf (f : FuncOp) (i r : Operation) : Prop :=
  i ∈ f.operations ∧ r ∈ f.operations ∧ i.isEventInit ∧ r.inner.kind = .ret ∧
    ∃ v ∈ r.inner.operands, v ∈ i.defs

/-- What `HandlerFullName` asserts of every `ReturnOp`: an `InitOp` defines its
operand. -/
def ReturnsDefined (ops : List Operation) : Prop :=
  ∀ r ∈ ops, r.inner.kind = .ret → ∀ v ∈ r.inner.operands, ∃ i ∈ ops, i.isEventInit ∧ v ∈ i.defs

/-- Events and their returns are on one side, and so every stage has the events that
it returns. -/
structure EventsTogether (f : FuncOp) (blk : Block) (S : List Vertex) : Prop where
  sides : ∀ i r, f.ReturnsEventOf i r → (.op i.id ∈ S ↔ .op r.id ∈ S)
  stages : ReturnsDefined f.operations → ∀ source sink,
    functionSplitter f.name blk (sinkOps f S) = some (source, sink) →
      ReturnsDefined source.operations ∧ ReturnsDefined sink.operations

section Stages

variable {f : FuncOp} {blk : Block} {S : List Vertex} {ops ops' : List Operation}

theorem ReturnsDefined.append (h : ReturnsDefined ops) (h' : ReturnsDefined ops') :
    ReturnsDefined (ops ++ ops') := by
  intro r hr hret v hv
  rcases mem_append.mp hr with hr | hr
  · obtain ⟨i, hi, hrest⟩ := h r hr hret v hv
    exact ⟨i, mem_append_left _ hi, hrest⟩
  · obtain ⟨i, hi, hrest⟩ := h' r hr hret v hv
    exact ⟨i, mem_append_right _ hi, hrest⟩

/-- A terminator returns nothing. -/
theorem returnsDefined_term (t : Terminator) (id : OpId) : ReturnsDefined [t.toOperation id] := by
  intro r hr hret
  obtain rfl := mem_singleton.mp hr
  cases t <;> cases hret

/-- The return of the event between the stages finds it. -/
theorem returnsDefined_createGenerate (name : String) (blk : Block) (K : List OpId) :
    ReturnsDefined (createGenerate name blk K) := by
  intro r hr hret v hv
  rcases mem_pair.mp hr with rfl | rfl
  · cases hret
  · obtain rfl := mem_singleton.mp hv
    exact ⟨_, mem_cons_self, rfl, mem_singleton_self _⟩

/-- A side that has the events of its returns. -/
theorem ReturnsDefined.filter {p : Operation → Bool} (hblk : f.blocks = [blk])
    (h : ReturnsDefined f.operations) (hside : ∀ i r, f.ReturnsEventOf i r → p r → p i) :
    ReturnsDefined (blk.ops.filter p) := by
  have hops : f.operations = blk.ops ++ [blk.term.toOperation blk.termId] := by
    simp [FuncOp.operations, hblk, Block.operations]
  intro r hr hret v hv
  obtain ⟨hr, hp⟩ := mem_filter.mp hr
  have hrf : r ∈ f.operations := hops ▸ mem_append_left _ hr
  obtain ⟨i, hi, hinit, hdef⟩ := h r hrf hret v hv
  refine ⟨i, mem_filter.mpr ⟨?_, hside i r ⟨hi, hrf, hinit, hret, v, hv, hdef⟩ hp⟩, hinit, hdef⟩
  rw [hops] at hi
  refine (mem_append.mp hi).resolve_right fun hterm => ?_
  obtain rfl := mem_singleton.mp hterm
  cases ht : blk.term <;> rw [ht] at hinit <;> cases hinit

theorem EventsTogether.of_sides (hblk : f.blocks = [blk])
    (h : ∀ i r, f.ReturnsEventOf i r → (.op i.id ∈ S ↔ .op r.id ∈ S)) :
    EventsTogether f blk S := by
  refine ⟨h, fun hdefined source sink hsplit => ?_⟩
  have hsame : ∀ i r, f.ReturnsEventOf i r → inSink (sinkOps f S) r = inSink (sinkOps f S) i := by
    intro i r hir
    rw [Bool.eq_iff_iff, inSink, inSink, decide_eq_true_iff, decide_eq_true_iff,
      mem_sinkOps hir.1, mem_sinkOps hir.2.1, h i r hir]
  rw [functionSplitter] at hsplit
  split at hsplit
  case isFalse => cases hsplit
  cases hsplit
  have hsrc := hdefined.filter (p := fun o => !inSink (sinkOps f S) o) hblk
    fun i r hir hp => hsame i r hir ▸ hp
  have hsink := hdefined.filter (p := inSink (sinkOps f S)) hblk
    fun i r hir hp => hsame i r hir ▸ hp
  constructor
  · rw [FuncOp.operations, sourceFunc, flatMap_singleton]
    exact (hsrc.append (returnsDefined_createGenerate _ _ _)).append (returnsDefined_term _ _)
  · rw [FuncOp.operations, sinkFunc, flatMap_singleton]
    exact hsink.append (returnsDefined_term _ _)

end Stages

/-- A guarded update of the table that the second lookup reads. -/
def guardedRule : PlainOp := ⟨17, .update "rules", [3, 2, 4], []⟩

/-- An event of the context and one other argument. -/
def sendType : Ty := .struct true [.context, .int 64] "NET_SEND"

/-- A block that sends its arguments on. -/
def sendBlock : Block where
  args := [(0, .context), (1, .int 64)]
  ops := [.plain ⟨10, .init sendType, [0, 1], [(2, sendType)]⟩, .plain ⟨11, .ret, [2], []⟩]
  termId := 12
  term := .terminate

def sendHandler : FuncOp where
  name := "__handler_NET_RECV"
  blocks := [sendBlock]

def sendGraph : CutGraph where
  adj := .ofWrites (graphWrites NetronomeKCutPolicy.policy sendHandler)
  falseEdges := falseEdges sendHandler
  pipelineConstraints := pipelineConstraints sendHandler

/-- The event has the capacity 129, its operands have 65 each. -/
def sendFlow : sendGraph.Flow := fun i =>
  if i.val ∈ [1, 2, 5] then 129
  else if i.val ∈ [3, 6] then 65
  else if i.val ∈ [4, 7] then 64
  else 0

def sendTopo : Vertex → Nat
  | .blockSource 0 => 6
  | .globalSource => 5
  | .value 0 | .value 1 => 4
  | .op 10 => 3
  | .value 2 => 2
  | .op 11 => 1
  | _ => 0

/-- The event without its return. -/
def sendSource : List Vertex :=
  [.op 12, .value 1, .value 0, .op 10, .blockSource 0, .globalSource]

theorem sendFlow_input : RoundInput sendGraph sendFlow sendTopo := by
  apply RoundInput.of_cut sendSource.toFinset <;> decide +kernel

end Alkali
