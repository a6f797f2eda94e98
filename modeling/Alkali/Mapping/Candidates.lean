import Alkali.Mapping.Contents

/-!
# The pipelines of `optimizationLoop`

Every pipeline that the loop tries is made of the handler by splits, and its stages
are functions of the module. The stages of cuts that `tableCut` gives up are erased
again.
-/

namespace Alkali

open SplitFunction List

section Search

variable {cutter : Cutter} {f : ModuleFunc} {m : List ModuleFunc}

theorem lt_freshFuncId {g : ModuleFunc} (h : g ∈ m) : g.id < freshFuncId m :=
  Nat.lt_succ_of_le (le_foldr_max (mem_map_of_mem h))

/-- New functions are added to the module. -/
theorem insertBefore_perm (hids : (m.map ModuleFunc.id).Nodup) (hf : f ∈ m)
    (new : List ModuleFunc) : (insertBefore f new m).Perm (new ++ m) := by
  obtain ⟨pre, post, rfl⟩ := append_of_mem hf
  rw [map_append, map_cons, nodup_middle, nodup_cons, ← map_append]
    at hids
  have hother : ∀ l ⊆ pre ++ post, insertBefore f new l = l := by
    intro l hl
    induction l with
    | nil => rfl
    | cons g l ih =>
      rw [cons_subset] at hl
      have hne : g.id ≠ f.id := fun heq => hids.1 (heq ▸ mem_map_of_mem hl.1)
      have ih' : l.flatMap (fun g => if g.id = f.id then new ++ [g] else [g]) = l := ih hl.2
      rw [insertBefore, flatMap_cons, if_neg hne, ih', singleton_append]
  have heq : insertBefore f new (pre ++ f :: post) = pre ++ (new ++ f :: post) := by
    have hpre := hother pre (subset_append_left _ _)
    have hpost := hother post (subset_append_right _ _)
    rw [insertBefore] at hpre hpost ⊢
    rw [flatMap_append, flatMap_cons, hpre, hpost, if_pos rfl]
    simp
  rw [heq, ← append_assoc, ← append_assoc]
  exact perm_append_comm.append_right _

/-- Erasing the new functions undoes a cut. -/
theorem eraseFuncs_insertBefore {fs new : List ModuleFunc} (hfs : fs.Perm new)
    (hnew : ∀ g ∈ new, ∀ g' ∈ m, g.id ≠ g'.id) : eraseFuncs fs (insertBefore f new m) = m := by
  have herased : eraseFuncs fs new = [] := by
    rw [eraseFuncs, filter_eq_nil_iff]
    intro g hg
    simpa using ⟨g, hfs.mem_iff.mpr hg, rfl⟩
  induction m with
  | nil => rfl
  | cons g m ih =>
    have hkept : eraseFuncs fs [g] = [g] := by
      refine filter_eq_self.mpr fun g' hg' => ?_
      obtain rfl := mem_singleton.mp hg'
      simpa using fun h hh => hnew h (hfs.mem_iff.mp hh) g' mem_cons_self
    have hrest : eraseFuncs fs (insertBefore f new m) = m :=
      ih fun h hh g' hg' => hnew h hh g' (mem_cons_of_mem g hg')
    rw [insertBefore, eraseFuncs] at hrest
    rw [eraseFuncs] at herased hkept
    rw [insertBefore, eraseFuncs, flatMap_cons, filter_append, hrest]
    split
    · rw [filter_append, herased, hkept]
      rfl
    · rw [hkept]
      rfl

/-- The stages of a cut have new identities. -/
theorem cutStages_fresh {bodies : FuncOp × FuncOp} :
    ∀ g ∈ [(cutStages m f bodies).1, (cutStages m f bodies).2], ∀ g' ∈ m, g.id ≠ g'.id := by
  intro g hg g' hg' heq
  have hlt := lt_freshFuncId hg'
  rcases mem_pair.mp hg with rfl | rfl
  · exact Nat.ne_of_gt hlt heq
  · exact Nat.ne_of_gt (Nat.lt_succ_of_lt hlt) heq

/-- What a search does to the module: nothing, or it splits the function. -/
inductive Explored (f : ModuleFunc) (m : List ModuleFunc) : List ModuleFunc → List ModuleFunc → Prop
  | same : Explored f m m [f]
  | split {sinkOps bodies parts}
      (split : functionSplitter f.func.name f.func.flatBlock sinkOps = some bodies)
      (stages : parts.Perm [(cutStages m f bodies).1, (cutStages m f bodies).2]) :
      Explored f m (insertBefore f [(cutStages m f bodies).1, (cutStages m f bodies).2] m) parts

variable {σ σ' : Search}

theorem stepSearch_explored {param : Nat × Nat} {funcs : List ModuleFunc}
    (h : stepSearch cutter σ param f = some (σ', funcs)) : Explored f σ.module σ'.module funcs := by
  rw [stepSearch] at h
  split at h
  · cases h
  · cases h
    exact .same
  · next sinkOps sinkFirst _ =>
      obtain ⟨bodies, hbodies, hres⟩ := Option.map_eq_some_iff.mp h
      cases hres
      refine .split hbodies ?_
      split
      · exact List.Perm.swap _ _ _
      · exact List.Perm.refl _

theorem tableCutFrom_explored {params : List (Nat × Nat)} {result : Option (List ModuleFunc)}
    (h : tableCutFrom cutter f params σ = some (σ', result)) :
    (result = none ∧ σ'.module = σ.module) ∨
      ∃ funcs, result = some funcs ∧ Explored f σ.module σ'.module funcs := by
  induction params generalizing σ with
  | nil =>
    cases h
    exact Or.inl ⟨rfl, rfl⟩
  | cons param params ih =>
    obtain ⟨⟨τ, funcs⟩, hstep, hrest⟩ := Option.bind_eq_some_iff.mp h
    have hexp := stepSearch_explored hstep
    dsimp only at hrest
    split at hrest
    · cases hrest
      exact Or.inr ⟨funcs, rfl, hexp⟩
    · have hback : ∃ ρ : Search, ρ.module = σ.module ∧
          tableCutFrom cutter f params ρ = some (σ', result) := by
        generalize hm : τ.module = m' at hexp
        cases hexp with
        | same => exact ⟨τ, hm, by simpa using hrest⟩
        | split _ hparts =>
          have hlen : 1 < funcs.length := by
            rw [hparts.length_eq]
            exact Nat.one_lt_two
          rw [if_pos hlen, hm, eraseFuncs_insertBefore hparts cutStages_fresh] at hrest
          exact ⟨⟨σ.module, τ.calls⟩, rfl, hrest⟩
      obtain ⟨ρ, hρ, hcut⟩ := hback
      exact hρ ▸ ih hcut

/-- A new pipeline has the parts of its bottleneck in the place of it. -/
theorem next_explored {pipeline : List ModuleFunc} {i : Nat} {nexts : List (List ModuleFunc)}
    (h : next cutter pipeline i σ = some (σ', nexts)) :
    ∃ pre g post, pipeline = pre ++ g :: post ∧ ((nexts = [] ∧ σ'.module = σ.module) ∨
        ∃ parts, nexts = [pre ++ parts ++ post] ∧ Explored g σ.module σ'.module parts) := by
  obtain ⟨g, hg, hcut⟩ := Option.bind_eq_some_iff.mp h
  obtain ⟨⟨τ, result⟩, hres, hpair⟩ := Option.map_eq_some_iff.mp hcut
  cases hpair
  obtain ⟨hi, rfl⟩ := List.getElem?_eq_some_iff.mp hg
  refine ⟨pipeline.take i, pipeline[i], pipeline.drop (i + 1), by simp, ?_⟩
  rcases tableCutFrom_explored hres with ⟨rfl, hm⟩ | ⟨parts, rfl, hexp⟩
  · exact Or.inl ⟨rfl, hm⟩
  · exact Or.inr ⟨parts, rfl, hexp⟩

end Search

/-- A pipeline of stages of the module that splits of the handler have made. -/
structure Candidate (f₀ : ModuleFunc) (m pipeline : List ModuleFunc) : Prop where
  splits : ∃ created, SplitsTo f₀ pipeline created
  subset : pipeline ⊆ m
  nodup : (pipeline.map ModuleFunc.id).Nodup

section Candidate

variable {f₀ g : ModuleFunc} {m m' parts pre post : List ModuleFunc}

section

variable (h : Explored g m m' parts) (hids : (m.map ModuleFunc.id).Nodup) (hg : g ∈ m)
include h hids hg

/-- The parts of a split are new functions of the module. -/
theorem Explored.cases :
    (parts = [g] ∧ m' = m) ∨ m'.Perm (parts ++ m) ∧ ((parts ++ m).map ModuleFunc.id).Nodup ∧
      ∃ sinkOps bodies sourceId sinkId,
        functionSplitter g.func.name g.func.flatBlock sinkOps = some bodies ∧
        parts.Perm [(g.splitInto sourceId sinkId bodies.1 bodies.2).1,
          (g.splitInto sourceId sinkId bodies.1 bodies.2).2] := by
  cases h with
  | same => exact Or.inl ⟨rfl, rfl⟩
  | @split sinkOps bodies _ hsplit hparts =>
    refine Or.inr ⟨(insertBefore_perm hids hg _).trans (hparts.symm.append_right m), ?_,
      sinkOps, bodies, _, _, hsplit, hparts⟩
    refine ((hparts.append_right m).map ModuleFunc.id).nodup_iff.mpr ?_
    have hne : (cutStages m g bodies).1.id ≠ (cutStages m g bodies).2.id := Nat.ne_of_lt
      (Nat.lt_succ_self _)
    have hpair : ([(cutStages m g bodies).1, (cutStages m g bodies).2].map
        ModuleFunc.id).Nodup := by simpa using hne
    refine nodup_append.mpr ⟨hpair, hids, fun a ha b hb => ?_⟩
    obtain ⟨x, hx, rfl⟩ := mem_map.mp ha
    obtain ⟨y, hy, rfl⟩ := mem_map.mp hb
    exact cutStages_fresh x hx y hy

theorem Explored.nodup : (m'.map ModuleFunc.id).Nodup := by
  rcases h.cases hids hg with ⟨-, rfl⟩ | ⟨hperm, hnd, -⟩
  · exact hids
  · exact (hperm.map ModuleFunc.id).nodup_iff.mpr hnd

theorem Explored.subset : m ⊆ m' := by
  rcases h.cases hids hg with ⟨-, rfl⟩ | ⟨hperm, -⟩
  · exact List.Subset.refl _
  · exact List.Subset.trans (subset_append_right parts m) hperm.symm.subset

end

theorem Candidate.mono {pipeline : List ModuleFunc} (h : Candidate f₀ m pipeline) (hm : m ⊆ m') :
    Candidate f₀ m' pipeline :=
  ⟨h.splits, List.Subset.trans h.subset hm, h.nodup⟩

section

variable (h : Explored g m m' parts)
include h

/-- Functions of the module with the parts of one of them. -/
theorem Explored.replace (hids : (m.map ModuleFunc.id).Nodup) (hsub : pre ++ g :: post ⊆ m)
    (hnd : ((pre ++ g :: post).map ModuleFunc.id).Nodup) :
    pre ++ parts ++ post ⊆ m' ∧ ((pre ++ parts ++ post).map ModuleFunc.id).Nodup := by
  have hg : g ∈ m := hsub (by simp)
  rcases h.cases hids hg with ⟨rfl, rfl⟩ | ⟨hperm, hnew, -⟩
  · simpa using And.intro hsub hnd
  · have hother : pre ++ post ⊆ m := fun x hx => hsub (by
      rw [mem_append, mem_cons]
      exact (mem_append.mp hx).imp_right Or.inr)
    have hparts : parts ++ (pre ++ post) ⊆ parts ++ m :=
      append_subset.mpr ⟨subset_append_left parts m,
        List.Subset.trans hother (subset_append_right parts m)⟩
    have hmiddle : (pre ++ parts ++ post).Perm (parts ++ (pre ++ post)) := by
      rw [← append_assoc]
      exact perm_append_comm.append_right post
    refine ⟨List.Subset.trans hmiddle.subset (List.Subset.trans hparts hperm.symm.subset), ?_⟩
    refine (hmiddle.map ModuleFunc.id).nodup_iff.mpr ?_
    rw [map_append, map_cons, nodup_middle, nodup_cons, ← map_append]
      at hnd
    rw [map_append, nodup_append] at hnew ⊢
    exact ⟨hnew.1, hnd.2, fun a ha b hb => hnew.2.2 a ha b (map_subset _ hother hb)⟩

/-- The pipeline with the parts of its bottleneck. -/
theorem Explored.candidate (hids : (m.map ModuleFunc.id).Nodup)
    (hc : Candidate f₀ m (pre ++ g :: post)) : Candidate f₀ m' (pre ++ parts ++ post) := by
  obtain ⟨hsub, hnd⟩ := h.replace hids hc.subset hc.nodup
  rcases h.cases hids (hc.subset (by simp)) with ⟨rfl, rfl⟩ |
    ⟨-, -, K, bodies, _, _, hsplit, hparts⟩
  · simpa using hc
  · obtain ⟨created, hcreated⟩ := hc.splits
    exact ⟨⟨_, .split pre post parts hcreated hsplit hparts⟩, hsub, hnd⟩

theorem Explored.isStage (hg : g.isStage) : ∀ x ∈ parts, x.isStage := by
  cases h with
  | same => simpa using hg
  | split _ hparts =>
    intro x hx
    rcases mem_pair.mp (hparts.mem_iff.mp hx) with rfl | rfl
    · exact hg
    · rfl

end

theorem filter_insertBefore {new : List ModuleFunc} (hnew : ∀ x ∈ new, x.isStage) :
    ((insertBefore g new m).filter fun x => !x.isStage) = m.filter fun x => !x.isStage := by
  have hnone : (new.filter fun x => !x.isStage) = [] :=
    filter_eq_nil_iff.mpr fun x hx => by simp [hnew x hx]
  induction m with
  | nil => rfl
  | cons x m ih =>
    rw [insertBefore] at ih
    rw [insertBefore, flatMap_cons, filter_append, ih]
    split
    · rw [filter_append, hnone, nil_append, ← filter_append]
      rfl
    · rw [← filter_append]
      rfl

/-- The functions that are no stages stay. -/
theorem Explored.others (h : Explored g m m' parts) (hg : g.isStage) :
    (m'.filter fun x => !x.isStage) = m.filter fun x => !x.isStage := by
  cases h with
  | same => rfl
  | @split sinkOps bodies _ hsplit hparts =>
    refine filter_insertBefore fun x hx => ?_
    exact (Explored.split (m := m) hsplit (List.Perm.refl _)).isStage hg x hx

end Candidate

section Loop

variable {M : PerformanceModel} {cutter : Cutter} {f₀ : ModuleFunc}
variable {mapper : PipelineMapper} {τ : LoopState}

/-- An iteration goes on if the pipeline is better, and ends the loop otherwise. -/
theorem loopStep_cons {pipeline : List ModuleFunc} {pipelines : List (List ModuleFunc)}
    {numNonOpts : Nat} {search : Search} :
    loopStep M cutter ⟨pipeline :: pipelines, numNonOpts, mapper, search⟩ =
      (M.getMapping (pipeline.map ModuleFunc.func)).bind fun result =>
        if result.latency < mapper.mappingResult.latency then
          (next cutter pipeline result.bottleneckIndex search).map fun r =>
            .inr ⟨pipelines ++ r.2, 0, ⟨pipeline, result⟩, r.1⟩
        else some (.inl (mapper, search.module)) := by
  simp only [loopStep, PipelineMapper.tryMap]
  cases M.getMapping (pipeline.map ModuleFunc.func) with
  | none => rfl
  | some result =>
    by_cases hlt : result.latency < mapper.mappingResult.latency
    · simp [hlt, pipelineExtraSearch]
    · simp [hlt, pipelineExtraSearch]

variable {σ : LoopState} {m : List ModuleFunc}

theorem loopStep_inr (h : loopStep M cutter σ = some (.inr τ)) :
    ∃ pipeline pipelines result nexts, σ.pipelines = pipeline :: pipelines ∧
      M.getMapping (pipeline.map ModuleFunc.func) = some result ∧
      result.latency < σ.mapper.mappingResult.latency ∧
      next cutter pipeline result.bottleneckIndex σ.search = some (τ.search, nexts) ∧
      τ = ⟨pipelines ++ nexts, 0, ⟨pipeline, result⟩, τ.search⟩ := by
  obtain ⟨_ | ⟨pipeline, pipelines⟩, numNonOpts, mapper, search⟩ := σ
  · cases h
  · rw [loopStep_cons] at h
    obtain ⟨result, hres, hrest⟩ := Option.bind_eq_some_iff.mp h
    split at hrest
    · next hlt =>
        obtain ⟨⟨search', nexts⟩, hnext, hτ⟩ := Option.map_eq_some_iff.mp hrest
        cases hτ
        exact ⟨pipeline, pipelines, result, nexts, rfl, hres, hlt, hnext, rfl⟩
    · cases hrest

theorem loopStep_inl (h : loopStep M cutter σ = some (.inl (mapper, m))) :
    mapper = σ.mapper ∧ m = σ.search.module := by
  obtain ⟨_ | ⟨pipeline, pipelines⟩, numNonOpts, mapper₀, search⟩ := σ
  · cases h
    exact ⟨rfl, rfl⟩
  · rw [loopStep_cons] at h
    obtain ⟨result, -, hrest⟩ := Option.bind_eq_some_iff.mp h
    split at hrest
    · obtain ⟨_, _, hτ⟩ := Option.map_eq_some_iff.mp hrest
      cases hτ
    · cases hrest
      exact ⟨rfl, rfl⟩

/-- What the loop keeps. -/
structure LoopInv (f₀ : ModuleFunc) (σ : LoopState) : Prop where
  ids : (σ.search.module.map ModuleFunc.id).Nodup
  pipelines : ∀ pipeline ∈ σ.pipelines, Candidate f₀ σ.search.module pipeline

/-- The mapper has a pipeline with its mapping. -/
structure Best (M : PerformanceModel) (f₀ : ModuleFunc) (σ : LoopState) : Prop where
  candidate : Candidate f₀ σ.search.module σ.mapper.functions
  mapping : M.getMapping (σ.mapper.functions.map ModuleFunc.func) = some σ.mapper.mappingResult

theorem LoopInv.start (hids : (m.map ModuleFunc.id).Nodup) (hf : f₀ ∈ m) :
    LoopInv f₀ (loopStart M f₀ m) := by
  refine ⟨hids, fun pipeline hpipeline => ?_⟩
  obtain rfl := mem_singleton.mp hpipeline
  exact ⟨⟨[], .start⟩, cons_subset.mpr ⟨hf, nil_subset _⟩, nodup_singleton _⟩

theorem LoopInv.step (h : LoopInv f₀ σ) (hstep : loopStep M cutter σ = some (.inr τ)) :
    LoopInv f₀ τ ∧ Best M f₀ τ := by
  obtain ⟨pipeline, pipelines, result, nexts, hpipelines, hres, -, hnext, hτ⟩ :=
    loopStep_inr hstep
  obtain ⟨pre, g, post, rfl, hcases⟩ := next_explored hnext
  have hcand := h.pipelines _ (hpipelines ▸ mem_cons_self)
  have hg : g ∈ σ.search.module := hcand.subset (by simp)
  have hold : ∀ p ∈ pipelines, Candidate f₀ σ.search.module p := fun p hp =>
    h.pipelines p (hpipelines ▸ mem_cons_of_mem _ hp)
  rcases hcases with ⟨rfl, hm⟩ | ⟨parts, rfl, hexp⟩
  · rw [hτ]
    refine ⟨⟨hm ▸ h.ids, fun p hp => ?_⟩, hm ▸ hcand, hres⟩
    rw [append_nil] at hp
    exact hm ▸ hold p hp
  · have hsub := hexp.subset h.ids hg
    rw [hτ]
    refine ⟨⟨hexp.nodup h.ids hg, fun p hp => ?_⟩, hcand.mono hsub, hres⟩
    rcases mem_append.mp hp with hp | hp
    · exact (hold p hp).mono hsub
    · obtain rfl := mem_singleton.mp hp
      exact hexp.candidate h.ids hcand

/-- A state that the loop comes to is the first one, or the mapper has a pipeline. -/
theorem LoopInv.reached (hids : (m.map ModuleFunc.id).Nodup) (hf : f₀ ∈ m)
    (h : FuelLoop.Reaches (loopStep M cutter) (loopStart M f₀ m) σ) :
    LoopInv f₀ σ ∧ (σ = loopStart M f₀ m ∨ Best M f₀ σ) := by
  refine h.invariant (P := fun σ => LoopInv f₀ σ ∧ (σ = loopStart M f₀ m ∨ Best M f₀ σ))
    ⟨.start hids hf, Or.inl rfl⟩ fun _ _ hσ hstep => ?_
  obtain ⟨hinv, hbest⟩ := hσ.1.step hstep
  exact ⟨hinv, Or.inr hbest⟩

end Loop

end Alkali
