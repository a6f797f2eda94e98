import Alkali.Pipeline.Sides

/-!
# The stages of a split handler refine it

Moving the sink operations behind the source operations is a reordering of the
block, and the sink function sees the part of the state that its operations
use. Together the stages end with the tables of the unsplit handler and emit
its events.
-/

namespace Alkali

open PipelineHandler SplitFunction

/-- No guarded return is on the source side. -/
def NoSourceReturns (blk : Block) (sinkOps : List OpId) : Prop :=
  ∀ o ∈ blk.ops, o.inner.kind = .ret → inSink sinkOps o

/-- The splitter succeeds, and for every input and every state of the tables
the stages end with the tables of the handler and emit its events. Their order
is the handler's when no return is on the source side. -/
def SplitRefines (f : FuncOp) (blk : Block) (sinkOps : List OpId) : Prop :=
  ∃ source sink, functionSplitter f.name blk sinkOps = some (source, sink) ∧
    ∀ (Val : Type) [Inhabited Val] [DecidableEq Val] (I : EventInterp Val)
      (inputs : List Val) (cells : Cell → Val → Val),
      ∃ emitted, callStages I source sink inputs cells =
          some ((f.call I.toInterp inputs cells).cells, emitted) ∧
        emitted.Perm (f.call I.toInterp inputs cells).trace ∧
        (NoSourceReturns blk sinkOps → emitted = (f.call I.toInterp inputs cells).trace)

section Stages

variable {Val : Type} [Inhabited Val] [DecidableEq Val]
variable {f : FuncOp} {blk : Block} {S : List Vertex}

theorem Linearized.call (hf : Linearized f blk) (I : Interp Val) (inputs : List Val)
    (cells : Cell → Val → Val) :
    f.call I inputs cells =
      exec I events blk.ops (initialState (blk.args.map Prod.fst) inputs cells) := by
  simp [FuncOp.call, FuncOp.args, hf.blocks]

variable (blk) in
/-- The generated operations emit one event, which holds the transferred values. -/
theorem exec_createGenerate (I : EventInterp Val) (name : String) (K : List OpId) (s : State Val) :
    ∃ event, I.fields event = (getValuesToTransfer blk K).map s.env ∧
      (exec I.toInterp events (createGenerate name blk K) s).cells = s.cells ∧
      (exec I.toInterp events (createGenerate name blk K) s).trace =
        s.trace ++ [(.ret, [event])] := by
  have hinit := I.fields_init ((getValuesToTransfer blk K).map blk.valueType)
    (name ++ "_sink") ((getValuesToTransfer blk K).map s.env)
  obtain ⟨event, heval, hfields⟩ := List.map_eq_singleton_iff.mp hinit
  refine ⟨event, hfields, rfl, ?_⟩
  simp [createGenerate, Operation.step, PlainOp.step, events, OpKind.outputs, OpKind.reads,
    eventType, heval, setResults]

section

variable (I : Interp Val) (name : String) (K : List OpId) (inputs : List Val)
  (cells : Cell → Val → Val)
include I name K inputs cells

variable (blk) in
theorem sourceFunc_call : (sourceFunc name blk K).call I inputs cells =
      exec I events (createGenerate name blk K) (exec I events (sourceOps blk K)
        (initialState (blk.args.map Prod.fst) inputs cells)) := by
  simp [FuncOp.call, FuncOp.args, sourceFunc]

theorem sinkFunc_call : (sinkFunc name blk K).call I inputs cells = exec I events (sinkOpsOf blk K)
        (initialState (getValuesToTransfer blk K) inputs cells) := by
  simp [FuncOp.call, FuncOp.args, sinkFunc, Function.comp_def]

end

omit [DecidableEq Val] in
/-- Called on the values of a state, a function starts in agreement with it. -/
theorem agreeOn_initialState (vs : List Value) (C : Cell → Prop) (s : State Val) :
    AgreeOn vs C s (initialState vs (vs.map s.env) s.cells) where
  env v hv := by
    have hlt : vs.idxOf v < vs.length := List.idxOf_lt_length_of_mem hv
    have hget : (vs.map s.env).getD (vs.idxOf v) default = s.env v := by
      simp [List.getD_eq_getElem?_getD, hlt]
    simp only [initialState, setResults, if_pos hv, hget]
  cells _ _ := rfl

variable {K : List OpId}

/-- The sink uses the transferred values and its own results. -/
theorem Linearized.sink_usesFrom (hf : Linearized f blk) (h : sinkErasable blk K = true) :
    UsesFrom (getValuesToTransfer blk K) (sinkOpsOf blk K) := by
  rw [hf.sinkErasable_iff] at h
  apply hf.dominated.filter
  · rintro v ha ⟨o, ho, hK, hv⟩
    rcases h o ho hK v hv with ht | ⟨d, hd, _, hvd⟩
    · exact ht
    · exact absurd ha (hf.not_arg_of_def hd hvd)
  · rintro d hd hKd v hvd ⟨o, ho, hK, hv⟩
    rcases h o ho hK v hv with ht | ⟨d', hd', hKd', hvd'⟩
    · exact ht
    · rw [hf.eq_of_def hd hd' hvd hvd', hKd'] at hKd
      cases hKd

/-- The stages, once the last event of the source is known. -/
theorem callStages_of_trace {I : EventInterp Val} {source sink : FuncOp}
    {inputs : List Val} {cells : Cell → Val → Val} (emitted : List (Effect Val))
    {k : OpKind} {event : Val}
    (h : (source.call I.toInterp inputs cells).trace = emitted ++ [(k, [event])]) :
    let t := sink.call I.toInterp (I.fields event) (source.call I.toInterp inputs cells).cells
    callStages I source sink inputs cells = some (t.cells, emitted ++ t.trace) := by
  simp [callStages, h]

/-- Stage by stage: the tables and events of running the source operations and
then the sink operations of the block. -/
theorem Linearized.callStages_eq (hf : Linearized f blk) (h : sinkErasable blk K = true)
    (I : EventInterp Val) (inputs : List Val) (cells : Cell → Val → Val) {s : State Val}
    (hs : s = exec I.toInterp events (sourceOps blk K ++ sinkOpsOf blk K)
      (initialState (blk.args.map Prod.fst) inputs cells)) :
    callStages I (sourceFunc f.name blk K) (sinkFunc f.name blk K) inputs cells =
      some (s.cells, s.trace) := by
  rw [exec_append] at hs
  have hcall := sourceFunc_call blk I.toInterp f.name K inputs cells
  generalize exec I.toInterp events (sourceOps blk K)
    (initialState (blk.args.map Prod.fst) inputs cells) = s₁ at hs hcall
  obtain ⟨event, hfields, hcells, htrace⟩ := exec_createGenerate blk I f.name K s₁
  obtain ⟨hagree, e, hs₁, ht⟩ := exec_agree I.toInterp events
    (C := fun _ => True) (hf.sink_usesFrom h) (fun _ _ _ _ => trivial)
    (agreeOn_initialState (getValuesToTransfer blk K) _ s₁)
  have hsame := funext fun c => hagree.cells c trivial
  rw [← hcall] at hcells htrace
  rw [callStages_of_trace _ htrace, sinkFunc_call, hfields, hcells, ht, hs, ← hsame, hs₁]
  rfl

section

variable (hf : Linearized f blk) (hcut : CutSound f.operations S)
  (hguard : GuardsClosed blk (sinkOps f S)) (hstate : StateOrdered blk (sinkOps f S))
include hf hcut hguard hstate

/-- The block with its sink operations moved behind the source operations. -/
theorem Linearized.exec_similar (I : Interp Val) (s : State Val) : (exec I events blk.ops s).Similar
      (exec I events (sourceOps blk (sinkOps f S) ++ sinkOpsOf blk (sinkOps f S)) s) := by
  have h := similar_compatible I events |>.run_partition
    (fun o => !inSink (sinkOps f S) o) (l := blk.ops)
    ((hf.independent hcut hguard hstate).imp fun hind hp ho =>
      (hind (by simpa using hp) (by simpa using ho)).similar) s
  simpa [exec, sourceOps, sinkOpsOf] using h

theorem Linearized.exec_eq
    (hret : NoSourceReturns blk (sinkOps f S)) (I : Interp Val) (s : State Val) :
    exec I events blk.ops s =
      exec I events (sourceOps blk (sinkOps f S) ++ sinkOpsOf blk (sinkOps f S)) s := by
  have h := eq_compatible I events |>.run_partition
    (fun o => !inSink (sinkOps f S) o) (l := blk.ops)
    ((hf.independent hcut hguard hstate).imp_of_mem fun {p o} _ ho hind hKp hKo t => by
      have hKo' : inSink (sinkOps f S) o = false := by simpa using hKo
      refine (hind (by simpa using hKp) hKo').comm (Or.inr ?_) t
      by_contra hobs
      have hkind : o.inner.kind = .ret := by simpa [events] using hobs
      rw [hret o ho hkind] at hKo'
      cases hKo') s
  simpa [exec, sourceOps, sinkOpsOf] using h

end

end Stages

/-- On a cut that `pipelineHandler` accepts and that keeps the accesses to the state that is
not imported in order, the stages of `functionSplitter` refine the handler exactly when
what guarded operations use is available on the side of their guard. -/
theorem functionSplitter_refines_iff {f : FuncOp} {blk : Block} {S : List Vertex}
    {policy : PipelinePolicy} {bal : Balance} (hf : Linearized f blk)
    (hop : ∀ o, 1 ≤ policy.operationWeight o) (hval : ∀ v, 1 ≤ policy.valueWeight v)
    (haccept : Accepts policy bal f S) (hstate : StateOrdered blk (sinkOps f S)) :
    SplitRefines f blk (sinkOps f S) ↔ GuardsClosed blk (sinkOps f S) := by
  obtain ⟨g, hg, run⟩ := haccept
  have hcut := cutSound_operations hf.wellFormed hg
    (run.finiteCut (buildGraph_closed hg) (vertexWeight_pos hop hval))
  have herase := hf.erasable_iff hcut
  constructor
  · rintro ⟨source, sink, hsplit, _⟩
    apply herase.mp
    by_contra hn
    rw [functionSplitter, if_neg (by simpa using hn)] at hsplit
    cases hsplit
  · intro hguard
    have hok := herase.mpr hguard
    refine ⟨sourceFunc f.name blk (sinkOps f S), sinkFunc f.name blk (sinkOps f S), ?_, ?_⟩
    · rw [functionSplitter, if_pos (by simpa using hok)]
    · intro Val _ _ I inputs cells
      have hsim := hf.exec_similar hcut hguard hstate I.toInterp
        (initialState (blk.args.map Prod.fst) inputs cells)
      have hstages := hf.callStages_eq hok.1 I inputs cells rfl
      rw [hf.call]
      refine ⟨_, hstages.trans ?_, hsim.trace.symm, ?_⟩
      · rw [hsim.cells]
      · intro hret
        rw [hf.exec_eq hcut hguard hstate hret]

variable {guarded : PlainOp}

theorem cacheHandler_linearized (h : guarded = guardedReturn ∨ guarded = guardedUpdate) :
    Linearized (cacheHandler guarded) (cacheBlock guarded) where
  blocks := rfl
  term := rfl
  wellFormed := cacheHandler_wellFormed h
  dominated := by rcases h with rfl | rfl <;> decide
  distinct := by rcases h with rfl | rfl <;> decide
  imports := by rcases h with rfl | rfl <;> (unfold FuncOp.OneImportPerTable; decide)

theorem cacheBlock_stateOrdered (h : guarded = guardedReturn ∨ guarded = guardedUpdate)
    (K : List OpId) : StateOrdered (cacheBlock guarded) K := by
  apply stateOrdered_of_valueForm
  · rcases h with rfl | rfl <;> decide
  · unfold TablesImported UsesImport
    rcases h with rfl | rfl <;> decide

theorem functionSplitter_refines_cacheHandler :
    SplitRefines (cacheHandler guardedReturn) (cacheBlock guardedReturn)
      (sinkOps (cacheHandler guardedReturn) cacheSource) :=
  (functionSplitter_refines_iff (cacheHandler_linearized (Or.inl rfl))
    NetronomeKCutPolicy.one_le_operationWeight NetronomeKCutPolicy.one_le_valueWeight
    ⟨cacheGraph, cacheHandler_run (Or.inl rfl)⟩
    (cacheBlock_stateOrdered (Or.inl rfl) _)).mpr (by unfold GuardsClosed; decide)

/-- The guarded update refers to an import that the sink has lost, so the
splitter fails on a cut that the default policy accepts. -/
theorem functionSplitter_fails_on_guarded_update :
    Linearized (cacheHandler guardedUpdate) (cacheBlock guardedUpdate) ∧
      Accepts NetronomeKCutPolicy.policy (.ofTolerance (1 / 2) (1 / 10))
        (cacheHandler guardedUpdate) cacheSource ∧
      StateOrdered (cacheBlock guardedUpdate)
        (sinkOps (cacheHandler guardedUpdate) cacheSource) ∧
      ¬ SplitRefines (cacheHandler guardedUpdate) (cacheBlock guardedUpdate)
        (sinkOps (cacheHandler guardedUpdate) cacheSource) := by
  refine ⟨cacheHandler_linearized (Or.inr rfl), ⟨cacheGraph, cacheHandler_run (Or.inr rfl)⟩,
    cacheBlock_stateOrdered (Or.inr rfl) _, ?_⟩
  rintro ⟨source, sink, hsplit, _⟩
  cases hsplit

end Alkali
