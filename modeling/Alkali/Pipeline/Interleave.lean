import Alkali.Library.TwoStage
import Alkali.Pipeline.SplitCorrect

/-!
# Source and sink on different events

While the sink works on one event the source may be ahead by any number of
events. In value form the two share no imported table, so every interleaving of the
stages ends with the tables and emits the events of the unsplit handler.
-/

namespace Alkali

open PipelineHandler SplitFunction List

variable {Val : Type} [Inhabited Val] [DecidableEq Val]

/-- The stages as they run on a shared state, with the queue of events from the
source to the sink. -/
def stages (I : EventInterp Val) (source sink : FuncOp) :
    TwoStage (Cell → Val → Val) (List Val) Val (Effect Val) where
  front inputs cells :=
    let s := source.call I.toInterp inputs cells
    match s.trace.getLast? with
    | some (_, [event]) => (s.cells, event, s.trace.dropLast)
    | _ => (s.cells, default, s.trace)
  back event cells :=
    let t := sink.call I.toInterp (I.fields event) cells
    (t.cells, t.trace)

/-- Run a handler on one input after the other. -/
def FuncOp.callAll (I : Interp Val) (f : FuncOp) :
    List (List Val) → (Cell → Val → Val) → (Cell → Val → Val) × List (Effect Val)
  | [], cells => (cells, [])
  | inputs :: rest, cells =>
    let s := f.call I inputs cells
    let r := f.callAll I rest s.cells
    (r.1, s.trace ++ r.2)

section Calls

variable {I : Interp Val} {F : FuncOp} {C : Cell → Prop}

/-- The operations of the entry block. -/
def FuncOp.body (F : FuncOp) : List Operation := (F.blocks.head?.map Block.ops).getD []

/-- A call depends on the cells it accesses. -/
theorem call_congr (hC : CellsFrom C F.body) (inputs : List Val)
    {cells cells' : Cell → Val → Val} (h : ∀ c, C c → cells c = cells' c) :
    (F.call I inputs cells).trace = (F.call I inputs cells').trace ∧
      ∀ c, C c → (F.call I inputs cells).cells c = (F.call I inputs cells').cells c := by
  obtain ⟨hagree, e, hs, ht⟩ := exec_agree I events
    (s := initialState (F.args.map Prod.fst) inputs cells)
    (t := initialState (F.args.map Prod.fst) inputs cells')
    (usesFrom_uses F.body) hC ⟨fun _ _ => rfl, h⟩
  exact ⟨hs.trans ht.symm, hagree.cells⟩

theorem call_frame (hC : CellsFrom C F.body) (inputs : List Val)
    {cells : Cell → Val → Val} {c : Cell} (h : ¬ C c) :
    (F.call I inputs cells).cells c = cells c :=
  exec_cells_of_not_accessed hC h

end Calls

/-- Stages that access different cells, and of which the source only emits the
event for the sink, do not interfere. -/
theorem stages_separated {I : EventInterp Val} {source sink : FuncOp} {C D : Cell → Prop}
    (hC : CellsFrom C source.body) (hD : CellsFrom D sink.body)
    (hdisj : ∀ c, C c → ¬ D c)
    (hev : ∀ inputs cells, ∃ event,
      (source.call I.toInterp inputs cells).trace = [(.ret, [event])]) :
    (stages I source sink).Separated := by
  have hfront : ∀ inputs cells, ∃ event,
      (source.call I.toInterp inputs cells).trace = [(.ret, [event])] ∧
        (stages I source sink).front inputs cells =
          ((source.call I.toInterp inputs cells).cells, event, []) := by
    intro inputs cells
    obtain ⟨event, h⟩ := hev inputs cells
    exact ⟨event, h, by simp [stages, h]⟩
  have hsink : ∀ m cells c, C c → ((stages I source sink).back m cells).1 c = cells c :=
    fun m cells c hc => call_frame hD (I.fields m) (hdisj c hc)
  have hsrc : ∀ x cells c, D c → (source.call I.toInterp x cells).cells c = cells c :=
    fun x cells c hd => call_frame hC x fun hc => hdisj c hc hd
  constructor
  · intro x c
    obtain ⟨event, _, h⟩ := hfront x c
    rw [h]
  · intro x m c
    obtain ⟨event, ht, h⟩ := hfront x c
    obtain ⟨event', ht', h'⟩ := hfront x ((stages I source sink).back m c).1
    have hsame := (call_congr (I := I.toInterp) hC x (hsink m c)).1
    rw [ht, ht'] at hsame
    rw [h, h']
    simpa using hsame
  · intro x m c
    obtain ⟨event, _, h⟩ := hfront x c
    obtain ⟨event', _, h'⟩ := hfront x ((stages I source sink).back m c).1
    rw [h, h']
    dsimp only
    funext k
    by_cases hk : C k
    · rw [(call_congr (I := I.toInterp) hC x (hsink m c)).2 k hk]
      exact (hsink m _ k hk).symm
    · rw [call_frame hC x hk]
      by_cases hd : D k
      · exact (call_congr (I := I.toInterp) hD (I.fields m) (hsrc x c)).2 k hd |>.symm
      · exact (call_frame hD (I.fields m) hd).trans
          ((call_frame hD (I.fields m) hd).trans (call_frame hC x hk)).symm
  · intro x m c
    obtain ⟨event, _, h⟩ := hfront x c
    rw [h]
    exact (call_congr (I := I.toInterp) hD (I.fields m) (hsrc x c)).1

section Value

variable {f : FuncOp} {blk : Block} {S : List Vertex}

/-- Without guards nothing is used inside of guards. -/
theorem guardsClosed_of_no_guards (h : ∀ o ∈ blk.ops, o.isGuard = false) (K : List OpId) :
    GuardsClosed blk K := by
  intro o ho v hv
  cases o with
  | plain op => cases hv
  | guard i ps as body => exact absurd (h _ ho) (by simp [Operation.isGuard])

/-- Without guards the returns are where the cut puts them. -/
theorem noSourceReturns_of_no_guards (hf : Linearized f blk)
    (h : ∀ o ∈ blk.ops, o.isGuard = false) (hcut : CutSound f.operations S) :
    NoSourceReturns blk (sinkOps f S) := by
  intro o ho hkind
  cases o with
  | plain op =>
    rw [inSink_iff (hf.mem_operations ho)]
    exact hcut.returns _ (hf.mem_operations ho)
      (by simpa [Operation.isReturn, Operation.kind?] using hkind)
  | guard i ps as body => exact absurd (h _ ho) (by simp [Operation.isGuard])

/-- The source of a handler without source returns emits its event only. -/
theorem source_emits_event (hret : NoSourceReturns blk (sinkOps f S))
    (I : EventInterp Val) (inputs : List Val) (cells : Cell → Val → Val) :
    ∃ event, ((sourceFunc f.name blk (sinkOps f S)).call I.toInterp inputs cells).trace =
      [(.ret, [event])] := by
  rw [sourceFunc_call]
  obtain ⟨event, _, _, htrace⟩ := exec_createGenerate blk I f.name (sinkOps f S)
    (exec I.toInterp events (sourceOps blk (sinkOps f S))
      (initialState (blk.args.map Prod.fst) inputs cells))
  refine ⟨event, ?_⟩
  rw [htrace, exec_trace_of_quiet]
  · rfl
  · intro o ho
    obtain ⟨ho, hK⟩ := mem_filter.mp ho
    by_contra hobs
    have hkind : o.inner.kind = .ret := by simpa [events] using hobs
    rw [hret o ho hkind] at hK
    cases hK

/-- The source and the sink access different cells. -/
theorem sides_disjoint (hf : Linearized f blk) (htables : TablesImported blk)
    (hvalue : ∀ o ∈ blk.ops, o.inner.kind.valueForm)
    (hcut : CutSound f.operations S) (hg : GuardsClosed blk (sinkOps f S)) {c : Cell}
    (hsrc : ∃ o ∈ (sourceFunc f.name blk (sinkOps f S)).body, o.accesses c)
    (hsink : ∃ o ∈ (sinkFunc f.name blk (sinkOps f S)).body, o.accesses c) : False := by
  obtain ⟨o, ho, hoc⟩ := hsrc
  obtain ⟨p, hp, hpc⟩ := hsink
  have htab : ∀ q ∈ blk.ops, q.accesses c → ∃ t, c = .table t ∧ q.inner.kind.table? = some t := by
    rintro q hq (hr | hw)
    · obtain ⟨t, rfl⟩ := OpKind.valueForm_reads (hvalue q hq) hr
      exact ⟨t, rfl, OpKind.table?_of_reads hr⟩
    · obtain ⟨t, rfl⟩ := OpKind.valueForm_writes (hvalue q hq) hw
      exact ⟨t, rfl, OpKind.table?_of_writes hw⟩
  rcases mem_append.mp ho with ho | ho
  · obtain ⟨ho, hKo⟩ := mem_filter.mp ho
    obtain ⟨hp, hKp⟩ := mem_filter.mp hp
    obtain ⟨t, rfl, hot⟩ := htab o ho hoc
    obtain ⟨t', heq, hpt⟩ := htab p hp hpc
    cases heq
    have hside := hf.table_side hcut hg ho hp (htables o ho t hot) (htables p hp t hpt)
    rw [hKp] at hside
    rw [hside] at hKo
    cases hKo
  · -- the generated operations access no cell
    simp only [createGenerate, mem_cons, not_mem_nil, or_false] at ho
    rcases ho with rfl | rfl <;> rcases hoc with h | h <;> cases h

/-- One input through both stages is a call of the handler. -/
theorem sequential_stages (hf : Linearized f blk) (htables : TablesImported blk)
    (hno : ∀ o ∈ blk.ops, o.isGuard = false)
    (hvalue : ∀ o ∈ blk.ops, o.inner.kind.valueForm) (hcut : CutSound f.operations S)
    (I : EventInterp Val) (xs : List (List Val)) (cells : Cell → Val → Val) :
    (stages I (sourceFunc f.name blk (sinkOps f S))
      (sinkFunc f.name blk (sinkOps f S))).sequential xs cells = f.callAll I.toInterp xs cells := by
  have hg := guardsClosed_of_no_guards hno (sinkOps f S)
  have hret := noSourceReturns_of_no_guards hf hno hcut
  have hst := stateOrdered_of_valueForm hvalue htables (sinkOps f S)
  induction xs generalizing cells with
  | nil => rfl
  | cons x xs ih =>
    obtain ⟨event, htrace⟩ := source_emits_event hret I x cells
    have hstages := hf.callStages_eq ((hf.erasable_iff hcut).mpr hg).1 I x cells rfl
    rw [callStages_of_trace [] htrace, ← hf.exec_eq hcut hg hst hret, ← hf.call] at hstages
    simp only [Option.some.injEq, Prod.mk.injEq, nil_append] at hstages
    have hfront : (stages I (sourceFunc f.name blk (sinkOps f S))
        (sinkFunc f.name blk (sinkOps f S))).front x cells =
        (((sourceFunc f.name blk (sinkOps f S)).call I.toInterp x cells).cells, event, []) := by
      simp [stages, htrace]
    simp only [TwoStage.sequential, hfront, FuncOp.callAll, nil_append]
    simp only [stages, hstages.1, hstages.2]
    rw [← ih]
    rfl

end Value

/-- For a handler in value form and every sound cut: the splitter succeeds, and
every interleaving of the stages that works off all events ends with the tables
of the unsplit handler and emits its events in its order. -/
theorem interleaving_eq_callAll {f : FuncOp} {blk : Block} {S : List Vertex}
    (hf : Linearized f blk) (htables : TablesImported blk)
    (hno : ∀ o ∈ blk.ops, o.isGuard = false)
    (hvalue : ∀ o ∈ blk.ops, o.inner.kind.valueForm) (hcut : CutSound f.operations S) :
    ∃ source sink, functionSplitter f.name blk (sinkOps f S) = some (source, sink) ∧
      ∀ (Val : Type) [Inhabited Val] [DecidableEq Val] (I : EventInterp Val)
        (xs : List (List Val)) (cells : Cell → Val → Val) (turns : List TwoStage.Turn)
        (σ : TwoStage.Config (Cell → Val → Val) (List Val) Val (Effect Val)),
        (stages I source sink).schedule turns ⟨xs, [], cells, []⟩ = some σ →
          σ.pending = [] → σ.queue = [] →
          (σ.state, σ.emitted) = f.callAll I.toInterp xs cells := by
  have hg := guardsClosed_of_no_guards hno (sinkOps f S)
  have hok := (hf.erasable_iff hcut).mpr hg
  refine ⟨_, _, if_pos (by simpa using hok), ?_⟩
  intro Val _ _ I xs cells turns σ hrun hpend hq
  have hsep : (stages I (sourceFunc f.name blk (sinkOps f S))
      (sinkFunc f.name blk (sinkOps f S))).Separated := by
    apply stages_separated
      (C := fun c => ∃ o ∈ (sourceFunc f.name blk (sinkOps f S)).body, o.accesses c)
      (D := fun c => ∃ o ∈ (sinkFunc f.name blk (sinkOps f S)).body, o.accesses c)
      (fun o ho c hc => ⟨o, ho, hc⟩) (fun o ho c hc => ⟨o, ho, hc⟩)
    · intro c hsrc hsink
      exact sides_disjoint hf htables hvalue hcut hg hsrc hsink
    · exact source_emits_event (noSourceReturns_of_no_guards hf hno hcut) I
  rw [hsep.schedule_eq_sequential hrun hpend hq]
  exact sequential_stages hf htables hno hvalue hcut I xs cells

/-- A block in value form: two lookups, and an update of the second table. -/
def lookupBlock : Block where
  args := [(0, .int 64)]
  ops := [
    .plain ⟨10, .globalImport "flows", [], [(1, .table (.int 64) (.int 32) 16)]⟩,
    .plain ⟨11, .lookup "flows", [1, 0], [(2, .int 32)]⟩,
    .plain ⟨12, .globalImport "rules", [], [(3, .table (.int 32) (.int 64) 16)]⟩,
    .plain ⟨13, .lookup "rules", [3, 2], [(4, .int 64)]⟩,
    .plain ⟨14, .compute "add", [4, 2], [(5, .int 64)]⟩,
    .plain ⟨15, .update "rules", [3, 2, 5], []⟩,
    .plain ⟨16, .init (.struct true [.int 64] "NET_SEND"), [5],
      [(6, .struct true [.int 64] "NET_SEND")]⟩,
    .plain ⟨18, .ret, [6], []⟩]
  termId := 19
  term := .terminate

def lookupHandler : FuncOp := ⟨"__handler_NET_RECV", [lookupBlock]⟩

theorem lookupHandler_linearized : Linearized lookupHandler lookupBlock where
  blocks := rfl
  term := rfl
  wellFormed := ⟨by decide, by decide, by decide, by decide⟩
  dominated := by decide
  distinct := by decide
  imports := by unfold FuncOp.OneImportPerTable; decide

theorem lookupHandler_cutSound : CutSound lookupHandler.operations cacheSource :=
  ⟨by decide, by decide, by decide⟩

theorem interleaving_lookupHandler : ∃ source sink, functionSplitter lookupHandler.name lookupBlock
        (sinkOps lookupHandler cacheSource) = some (source, sink) ∧
      ∀ (Val : Type) [Inhabited Val] [DecidableEq Val] (I : EventInterp Val)
        (xs : List (List Val)) (cells : Cell → Val → Val) (turns : List TwoStage.Turn)
        (σ : TwoStage.Config (Cell → Val → Val) (List Val) Val (Effect Val)),
        (stages I source sink).schedule turns ⟨xs, [], cells, []⟩ = some σ →
          σ.pending = [] → σ.queue = [] →
          (σ.state, σ.emitted) = lookupHandler.callAll I.toInterp xs cells :=
  interleaving_eq_callAll lookupHandler_linearized
    (by unfold TablesImported UsesImport; decide) (by decide) (by decide)
    lookupHandler_cutSound

example : ((stages .nat (sourceFunc "h" lookupBlock (sinkOps lookupHandler cacheSource))
      (sinkFunc "h" lookupBlock (sinkOps lookupHandler cacheSource))).schedule
        [.front, .front, .back, .back] ⟨[[3], [4]], [], fun _ _ => 0, []⟩).map (·.emitted) =
      some (lookupHandler.callAll EventInterp.nat.toInterp [[3], [4]] fun _ _ => 0).2 := by
  decide +kernel

end Alkali
