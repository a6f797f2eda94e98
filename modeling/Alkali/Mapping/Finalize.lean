import Alkali.Mapping.Candidates

/-!
# The result of `optimizationLoop`

The loop ends exactly if no step of it fails, and then the handlers that are left are
the stages of the best pipeline. There is one if the handler itself is below the bound
that the mapper starts with.
-/

namespace Alkali

open SplitFunction List ModuleFunc

section Safe

variable {cutter : Cutter} {f : ModuleFunc}

/-- `pipelineHandler` fails no assertion, and `functionSplitter` erases nothing that is
still used. -/
def CutOutcome.safe (f : FuncOp) : CutOutcome → Bool
  | .assertion => false
  | .failed => true
  | .cut sinkOps _ =>
    sinkErasable f.flatBlock sinkOps && sourceErasable f.name f.flatBlock sinkOps

/-- One of the functions after the cut has clean tables. -/
def CutOutcome.clean (f : FuncOp) : CutOutcome → Bool
  | .assertion => false
  | .failed => isTableClean f
  | .cut sinkOps _ =>
    isTableClean (sourceFunc f.name f.flatBlock sinkOps) ||
      isTableClean (sinkFunc f.name f.flatBlock sinkOps)

/-- The calls that `tableCut` makes, up to the first clean cut, are safe. -/
def SafeCalls (cutter : Cutter) (f : FuncOp) : List (Nat × Nat) → Nat → Prop
  | [], _ => True
  | param :: params, k =>
    (cutter k param f).safe f ∧
      ((cutter k param f).clean f = false → SafeCalls cutter f params (k + 1))

variable {σ : Search}

theorem stepSearch_isSome {param : Nat × Nat} :
    (stepSearch cutter σ param f).isSome = (cutter σ.calls param f.func).safe f.func := by
  rw [stepSearch]
  cases cutter σ.calls param f.func with
  | assertion => rfl
  | failed => rfl
  | cut sinkOps sinkFirst =>
    rw [Option.isSome_map, CutOutcome.safe, functionSplitter]
    split
    · next h => exact h.symm
    · next h => simpa using h

theorem stepSearch_clean {σ' : Search} {param : Nat × Nat} {funcs : List ModuleFunc}
    (h : stepSearch cutter σ param f = some (σ', funcs)) :
    (funcs.any fun g => isTableClean g.func) = (cutter σ.calls param f.func).clean f.func ∧
      σ'.calls = σ.calls + 1 := by
  rw [stepSearch] at h
  cases hcut : cutter σ.calls param f.func with
  | assertion => simp [hcut] at h
  | failed =>
    simp only [hcut] at h
    cases h
    exact ⟨by simp [CutOutcome.clean], rfl⟩
  | cut sinkOps sinkFirst =>
    simp only [hcut] at h
    obtain ⟨bodies, hbodies, hres⟩ := Option.map_eq_some_iff.mp h
    cases hres
    rw [functionSplitter] at hbodies
    split at hbodies
    case isFalse => cases hbodies
    cases hbodies
    refine ⟨?_, rfl⟩
    cases sinkFirst with
    | true => exact Bool.or_comm _ _ |>.trans (by simp [CutOutcome.clean, cutStages, splitInto])
    | false => simp [CutOutcome.clean, cutStages, splitInto]

/-- `tableCut` fails exactly if one of its calls does. -/
theorem tableCutFrom_isSome {params : List (Nat × Nat)} :
    (tableCutFrom cutter f params σ).isSome ↔ SafeCalls cutter f.func params σ.calls := by
  induction params generalizing σ with
  | nil => simp [tableCutFrom, SafeCalls]
  | cons param params ih =>
    rw [tableCutFrom, SafeCalls, ← stepSearch_isSome]
    cases hstep : stepSearch cutter σ param f with
    | none => simp
    | some r =>
      obtain ⟨hclean, hcalls⟩ := stepSearch_clean hstep
      rw [← hclean, ← hcalls, Option.bind_some, Option.isSome_some]
      dsimp only
      split
      · next hc => simp [hc]
      · next hc =>
          split <;> simp [ih, hc]

end Safe

section Final

variable (M : PerformanceModel) (cutter : Cutter) {f₀ : ModuleFunc} {m : List ModuleFunc}

/-- The next iteration fails nowhere: the mapping of the pipeline divides by no zero, and
if the pipeline is better than the best one, cutting its bottleneck is safe. -/
structure LoopState.Safe (σ : LoopState) : Prop where
  units : ∀ pipeline ∈ σ.pipelines.head?, M.EnoughUnits (pipeline.map func)
  cuts : ∀ pipeline ∈ σ.pipelines.head?, ∀ result, M.getMapping (pipeline.map func) = some result →
    result.latency < σ.mapper.mappingResult.latency →
    ∀ g ∈ pipeline[result.bottleneckIndex]?, SafeCalls cutter g.func cutParams σ.search.calls

/-- The result as it should be: the handlers that are left are those of the best
pipeline, there are some, splits have made them of the handler with all of its
operations, and they have instances. -/
structure Finalized (f₀ : ModuleFunc) (mapper : PipelineMapper) (m : List ModuleFunc) : Prop where
  exactly : ((stagesOf m).map fun g => (g.id, g.func)).Perm
    (mapper.functions.map fun g => (g.id, g.func))
  nonempty : mapper.functions ≠ []
  splits : ∃ created, SplitsTo f₀ mapper.functions created ∧
    (mapper.functions.flatMap fun g => g.func.operations).Perm (f₀.func.operations ++ created)
  instances : ∀ g ∈ stagesOf m, ∃ units, g.instances = some units ∧ units ≠ []

variable {M cutter}
variable {σ : LoopState}

theorem LoopInv.loopStep_isSome (hM : M.Plain) (h : LoopInv f₀ σ) :
    (loopStep M cutter σ).isSome ↔ σ.Safe M cutter := by
  obtain ⟨_ | ⟨pipeline, pipelines⟩, numNonOpts, mapper, search⟩ := σ
  · exact ⟨fun _ => ⟨nofun, nofun⟩, fun _ => rfl⟩
  · have hne : pipeline.map func ≠ [] := by
      obtain ⟨created, hsplits⟩ := (h.pipelines pipeline mem_cons_self).splits
      simpa using hsplits.ne_nil
    rw [loopStep_cons]
    cases hmap : M.getMapping (pipeline.map func) with
    | none =>
      have hunits := mt (hM.getMapping_isSome_iff hne).mpr (by simp [hmap])
      exact ⟨nofun, fun hsafe => absurd (hsafe.units pipeline rfl) hunits⟩
    | some result =>
      have hunits := (hM.getMapping_isSome_iff hne).mp (by simp [hmap])
      obtain ⟨r, hr, hok⟩ := (hM.getMapping_ok_iff hne).mpr hunits
      obtain rfl : result = r := Option.some.inj (hmap.symm.trans hr)
      have hlt : result.bottleneckIndex < pipeline.length := by simpa using hok.bottleneck_lt
      have hg := getElem?_eq_getElem hlt
      rw [Option.bind_some]
      split
      · next hbetter =>
          rw [Option.isSome_map, next, hg, Option.bind_some, Option.isSome_map, tableCut,
            tableCutFrom_isSome]
          constructor
          · intro hcalls
            refine ⟨fun p hp => Option.mem_some_iff.mp hp ▸ hunits, fun p hp r hr _ g hgp => ?_⟩
            cases hp
            cases hmap.symm.trans hr
            cases hg.symm.trans hgp
            exact hcalls
          · exact fun hsafe => hsafe.cuts pipeline rfl result hmap hbetter _ hg
      · next hworse =>
          refine ⟨fun _ => ⟨fun p hp => Option.mem_some_iff.mp hp ▸ hunits,
            fun p hp r hr hlt => ?_⟩, fun _ => rfl⟩
          cases hp
          cases hmap.symm.trans hr
          exact absurd hlt hworse

/-- What `finalize` leaves are the functions of the best pipeline. -/
theorem Best.kept_perm (h : Best M f₀ σ) (hids : (σ.search.module.map ModuleFunc.id).Nodup)
    (hf : f₀.isStage) :
    ((stagesOf σ.search.module).filter fun g =>
      g.id ∈ σ.mapper.functions.map ModuleFunc.id).Perm σ.mapper.functions := by
  obtain ⟨created, hsplits⟩ := h.candidate.splits
  refine (perm_ext_iff_of_nodup ?_ h.candidate.nodup.of_map).mpr fun g => ?_
  · exact (hids.of_map.filter _).filter _
  · simp only [stagesOf, mem_filter, decide_eq_true_eq]
    constructor
    · rintro ⟨⟨hg, -⟩, hid⟩
      obtain ⟨g', hg', heq⟩ := mem_map.mp hid
      exact inj_on_of_nodup_map hids (h.candidate.subset hg') hg heq ▸ hg'
    · exact fun hg => ⟨⟨h.candidate.subset hg, hsplits.isStage hf g hg⟩, mem_map_of_mem hg⟩

theorem stagesOf_finalize (mapper : PipelineMapper) (m : List ModuleFunc) :
    stagesOf (mapper.finalize m) =
      ((stagesOf m).filter fun g => g.id ∈ mapper.functions.map ModuleFunc.id).map fun g =>
        { g with instances := mapper.instances g } := by
  rw [stagesOf, stagesOf, PipelineMapper.finalize, filter_map, filter_filter, filter_filter]
  congr 1
  refine filter_congr fun g _ => ?_
  -- the attribute does not change what a stage is
  have hsame : (ModuleFunc.isStage ∘ fun g => { g with instances := mapper.instances g }) g =
      g.isStage := rfl
  rw [hsame]
  cases g.isStage <;> simp

theorem Best.finalized (h : Best M f₀ σ) (hids : (σ.search.module.map ModuleFunc.id).Nodup)
    (hf : f₀.isStage) (hbody : f₀.func.blocks ≠ []) :
    Finalized f₀ σ.mapper (σ.mapper.finalize σ.search.module) := by
  obtain ⟨created, hsplits⟩ := h.candidate.splits
  refine ⟨?_, hsplits.ne_nil, ⟨created, hsplits, hsplits.operations hbody⟩, fun g hg => ?_⟩
  · rw [stagesOf_finalize, map_map]
    exact (h.kept_perm hids hf).map fun g => (g.id, g.func)
  · rw [stagesOf_finalize] at hg
    obtain ⟨g, hkept, rfl⟩ := mem_map.mp hg
    have hid : g.id ∈ σ.mapper.functions.map ModuleFunc.id :=
      mem_map_of_mem ((h.kept_perm hids hf).mem_iff.mp hkept)
    refine ⟨_, if_pos hid, PerformanceModel.getMapping_assigned h.mapping _ ?_⟩
    simpa using idxOf_lt_length_iff.mpr hid

/-- The first iteration ends the loop exactly if the handler is not below the bound. -/
theorem PerformanceModel.Plain.loopStep_start (hM : M.Plain)
    {r : (PipelineMapper × List ModuleFunc) ⊕ LoopState}
    (h : loopStep M cutter (loopStart M f₀ m) = some r) :
    r.isRight ↔ M.latencyAlone f₀.func < M.getLatencyTarget + 1000 := by
  rw [loopStart, loopStep_cons] at h
  obtain ⟨result, hres, hrest⟩ := Option.bind_eq_some_iff.mp h
  rw [← hM.getMapping_singleton hres]
  split at hrest
  · next hlt =>
      obtain ⟨_, _, rfl⟩ := Option.map_eq_some_iff.mp hrest
      exact ⟨fun _ => hlt, fun _ => rfl⟩
  · next hge =>
      cases hrest
      exact ⟨nofun, fun hlt => absurd hlt hge⟩

/-- The loop ends exactly if no iteration fails: the latency gets better as long as it
goes on. -/
theorem PerformanceModel.Plain.optimizationLoop_ends (hM : M.Plain)
    (hids : (m.map ModuleFunc.id).Nodup) (hf : f₀ ∈ m) :
    (∃ n r, optimizationLoop M cutter n f₀ m = some r) ↔
      ∀ σ, FuelLoop.Reaches (loopStep M cutter) (loopStart M f₀ m) σ → σ.Safe M cutter := by
  refine (FuelLoop.exists_run_iff (fun σ => σ.mapper.mappingResult.latency) ?_).trans ?_
  · intro σ τ _ hstep
    obtain ⟨_, _, result, _, -, -, hlt, -, hτ⟩ := loopStep_inr hstep
    rw [hτ]
    exact hlt
  · exact forall₂_congr fun σ hσ => (LoopInv.reached hids hf hσ).1.loopStep_isSome hM

/-- The result is as it should be exactly if the handler is below the bound that the
mapper starts with, and no iteration fails. -/
theorem PerformanceModel.Plain.finalized_iff (hM : M.Plain) (hone : stagesOf m = [f₀])
    (hids : (m.map ModuleFunc.id).Nodup) (hbody : f₀.func.blocks ≠ []) :
    (∃ n mapper m', optimizationLoop M cutter n f₀ m = some (mapper, m') ∧
        Finalized f₀ mapper (mapper.finalize m')) ↔
      M.latencyAlone f₀.func < M.getLatencyTarget + 1000 ∧
        ∀ σ, FuelLoop.Reaches (loopStep M cutter) (loopStart M f₀ m) σ → σ.Safe M cutter := by
  have hstage : f₀ ∈ stagesOf m := hone ▸ mem_singleton_self f₀
  have hf : f₀ ∈ m := mem_of_mem_filter hstage
  rw [← hM.optimizationLoop_ends hids hf]
  have hlast : ∀ n mapper m', optimizationLoop M cutter n f₀ m = some (mapper, m') →
      (mapper = .start M ∧ ¬ M.latencyAlone f₀.func < M.getLatencyTarget + 1000) ∨
      (Finalized f₀ mapper (mapper.finalize m') ∧
        M.latencyAlone f₀.func < M.getLatencyTarget + 1000) := by
    intro n mapper m' hrun
    obtain ⟨σ, hσ, hlast⟩ := FuelLoop.exists_of_run hrun
    obtain ⟨rfl, rfl⟩ := loopStep_inl hlast
    rcases hσ.cases_head with rfl | ⟨τ, hfirst, hrest⟩
    · exact Or.inl ⟨rfl, fun hlt => nomatch (hM.loopStep_start hlast).mpr hlt⟩
    · have hlt := (hM.loopStep_start hfirst).mp rfl
      obtain ⟨hinv, rfl | hbest⟩ := LoopInv.reached hids hf hσ
      · exact absurd ((hM.loopStep_start hlast).mpr hlt) nofun
      · exact Or.inr ⟨hbest.finalized hinv.ids (mem_filter.mp hstage).2 hbody, hlt⟩
  constructor
  · rintro ⟨n, mapper, m', hrun, hfinal⟩
    refine ⟨?_, n, _, hrun⟩
    rcases hlast n mapper m' hrun with ⟨rfl, -⟩ | ⟨-, hlt⟩
    · exact absurd rfl hfinal.nonempty
    · exact hlt
  · rintro ⟨hlt, n, ⟨mapper, m'⟩, hrun⟩
    rcases hlast n mapper m' hrun with ⟨-, hge⟩ | ⟨hfinal, -⟩
    · exact absurd hlt hge
    · exact ⟨n, mapper, m', hrun, hfinal⟩

end Final

/-- On both targets, the handlers that are left are the stages of the best pipeline,
exactly if the handler is below the bound that the mapper starts with, and no iteration
fails. -/
theorem Platform.finalize_ok_iff (p : Platform) (cutter : Cutter) {f₀ : ModuleFunc}
    {m : List ModuleFunc} (hone : stagesOf m = [f₀]) (hids : (m.map ModuleFunc.id).Nodup)
    (hbody : f₀.func.blocks ≠ []) :
    (∃ n mapper m', optimizationLoop p.model cutter n f₀ m = some (mapper, m') ∧
        Finalized f₀ mapper (mapper.finalize m')) ↔
      p.model.latencyAlone f₀.func < p.model.getLatencyTarget + 1000 ∧
        ∀ σ, FuelLoop.Reaches (loopStep p.model cutter) (loopStart p.model f₀ m) σ →
          σ.Safe p.model cutter :=
  p.plain.finalized_iff hone hids hbody

/-- A handler of a module. -/
def handlerFunc (id : FuncId) (ops : List Operation) : ModuleFunc :=
  { emptyHandler id false with func := handlerOf ops }

/-- Look up in a table, and with the result in another one. -/
def chainOps : List Operation :=
  [.plain ⟨20, .globalImport "flows", [], [(3, .table (.int 64) (.int 64) 16)]⟩,
    .plain ⟨21, .lookup "flows", [3, 1], [(4, .int 64)]⟩,
    .plain ⟨22, .globalImport "routes", [], [(5, .table (.int 64) (.int 64) 16)]⟩,
    .plain ⟨23, .lookup "routes", [5, 4], [(6, .int 64)]⟩]

/-- Cut off the second lookup of a handler. -/
def chainCutter : Cutter
  | 0, _, _ => .cut [22, 23, 100] false
  | _, _, _ => .failed

/-- The loop splits the handler once, and then finds nothing better. -/
theorem chain_optimizationLoop :
    (optimizationLoop netronomeModel chainCutter 3 (handlerFunc 1 chainOps)
      [handlerFunc 1 chainOps]).map (fun r => (r.1.functions.map ModuleFunc.id,
        r.1.mappingResult.latency)) = some ([2, 3], 100) := by
  decide

theorem Platform.finalize_ok_chain :
    ∃ n mapper m', optimizationLoop Platform.netronome.model chainCutter n
        (handlerFunc 1 chainOps) [handlerFunc 1 chainOps] = some (mapper, m') ∧
      Finalized (handlerFunc 1 chainOps) mapper (mapper.finalize m') := by
  obtain ⟨r, hr, -⟩ := Option.map_eq_some_iff.mp chain_optimizationLoop
  refine (Platform.netronome.finalize_ok_iff chainCutter rfl (by decide) (by decide)).mpr
    ⟨by decide, ?_⟩
  exact (Platform.netronome.plain.optimizationLoop_ends (by decide) mem_cons_self).mp
    ⟨3, r, hr⟩

/-- A handler with eleven lookups for two keys. -/
def elevenLookups : List Operation :=
  [.plain ⟨20, .globalImport "flows", [], [(3, .table (.int 64) (.int 64) 16)]⟩,
    .plain ⟨21, .compute "add", [1, 1], [(4, .int 64)]⟩] ++
  (List.range 11).map fun i =>
    .plain ⟨22 + i, .lookup "flows", [3, if i % 2 = 0 then 1 else 4], [(5 + i, .int 64)]⟩

/-- The latency of a handler with eleven lookups is above the bound that the mapper
starts with. The mapper keeps no pipeline, and `finalize` deletes the handler. -/
theorem netronome_finalize_elevenLookups :
    ∃ mapper m', optimizationLoop netronomeModel (fun _ _ _ => .failed) 1
        (handlerFunc 1 elevenLookups) [handlerFunc 1 elevenLookups] = some (mapper, m') ∧
      mapper.functions = [] ∧ mapper.finalize m' = [] :=
  ⟨.start netronomeModel, [handlerFunc 1 elevenLookups], rfl, rfl, rfl⟩

end Alkali
