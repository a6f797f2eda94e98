import Alkali.Mapping.Finalize

/-!
# `tableCutPolicy`

The policy searches for a cut with a stage whose tables have one key, and then erases the
handler. A cut that fails returns the handler itself in the place of the stages.
-/

namespace Alkali

open SplitFunction List PipelineHandler NetronomeKCutPolicy

/-! ## Clean tables -/

theorem foldl_keepKey_some (l : List Operation) (k : Value) (unique : Bool) :
    l.foldl keepKey (some k, unique) =
      (some k, unique && l.all fun o => o.tableKey.all (k == ·)) := by
  induction l generalizing unique with
  | nil => simp
  | cons o l ih =>
    rw [foldl_cons, all_cons]
    cases ho : o.tableKey with
    | none =>
      have hskip : keepKey (some k, unique) o = (some k, unique) := by simp [keepKey, ho]
      rw [hskip, ih]
      simp
    | some k' =>
      have hkeep : keepKey (some k, unique) o = (some k, unique && k == k') := by
        simp [keepKey, ho]
      rw [hkeep, ih]
      simp [Bool.and_assoc]

variable {f : FuncOp}

/-- There is a key, and all lookups and updates have it. -/
theorem isTableClean_iff : isTableClean f = true ↔ ∃ key, (∃ o ∈ f.walk, o.tableKey = some key) ∧
      ∀ o ∈ f.walk, ∀ k, o.tableKey = some k → k = key := by
  rw [isTableClean]
  generalize f.walk = l
  induction l with
  | nil => simp
  | cons o l ih =>
    cases ho : o.tableKey with
    | none =>
      have hskip : keepKey (none, true) o = (none, true) := by simp [keepKey, ho]
      rw [foldl_cons, hskip, ih]
      simp [ho]
    | some k =>
      have hkeep : keepKey (none, true) o = (some k, true) := by simp [keepKey, ho]
      rw [foldl_cons, hkeep, foldl_keepKey_some]
      simp only [Bool.true_and, Option.isSome_some, Bool.and_true, all_eq_true,
        Option.all_eq_true, beq_iff_eq]
      constructor
      · intro h
        refine ⟨k, ⟨o, mem_cons_self, ho⟩, fun o' ho' k' hk' => ?_⟩
        rcases mem_cons.mp ho' with rfl | ho'
        · exact Option.some.inj (hk'.symm.trans ho)
        · exact (h o' ho' k' hk').symm
      · rintro ⟨key, -, hall⟩ o' ho' k' hk'
        rw [hall o mem_cons_self k ho, hall o' (mem_cons_of_mem o ho') k' hk']

variable {sinkOps : List OpId} {bodies : FuncOp × FuncOp}

/-- The stages of a split have the lookups and updates of the function. -/
theorem mem_walk_stages (hblocks : f.blocks ≠ [])
    (h : functionSplitter f.name f.flatBlock sinkOps = some bodies) {o : Operation} {key : Value}
    (hkey : o.tableKey = some key) : o ∈ f.walk ↔ o ∈ bodies.1.walk ∨ o ∈ bodies.2.walk := by
  have hops := functionSplitter_operations h
  rw [FuncOp.flatBlock_operations hblocks] at hops
  have hwalk := (hops.flatMap_right fun o => o :: o.nested.map .plain).mem_iff (a := o)
  rw [flatMap_append, mem_append, flatMap_append, mem_append] at hwalk
  -- none of the operations that a split adds accesses a table
  have hcreated : o ∉ (createdOps f.name f.flatBlock sinkOps).flatMap
      fun o => o :: o.nested.map .plain := by
    intro hmem
    simp only [createdOps, createGenerate, cons_append, nil_append, flatMap_cons,
      flatMap_nil, Operation.nested, map_nil, append_nil, mem_cons,
      not_mem_nil, or_false] at hmem
    rcases hmem with rfl | rfl | rfl <;> cases hkey
  exact ⟨fun ho => hwalk.mpr (.inl ho), fun ho => (hwalk.mp ho).resolve_right hcreated⟩

/-- A function with clean tables has a stage with clean tables. -/
theorem isTableClean_stages (hclean : isTableClean f = true)
    (h : functionSplitter f.name f.flatBlock sinkOps = some bodies) :
    isTableClean bodies.1 = true ∨ isTableClean bodies.2 = true := by
  obtain ⟨key, ⟨o, ho, hkey⟩, hall⟩ := isTableClean_iff.mp hclean
  have hblocks : f.blocks ≠ [] := by
    intro hnil
    simp [FuncOp.walk, FuncOp.operations, hnil] at ho
  refine ((mem_walk_stages hblocks h hkey).mp ho).imp (fun ho => ?_) fun ho => ?_
  · refine isTableClean_iff.mpr ⟨key, ⟨o, ho, hkey⟩, fun o' ho' k hk => ?_⟩
    exact hall o' ((mem_walk_stages hblocks h hk).mpr (.inl ho')) k hk
  · refine isTableClean_iff.mpr ⟨key, ⟨o, ho, hkey⟩, fun o' ho' k hk => ?_⟩
    exact hall o' ((mem_walk_stages hblocks h hk).mpr (.inr ho')) k hk

/-! ## The policy -/

/-- `tableCutPolicy`: the loop of `tableCut`, after which a function that has a cut is erased. -/
def tableCutPolicy (cutter : Cutter) (targetFunc : ModuleFunc) (σ : Search) :
    Option (Search × Bool) :=
  (tableCut cutter targetFunc σ).map fun (σ', result) =>
    match result with
    | some _ => ({ σ' with module := eraseFuncs [targetFunc] σ'.module }, true)
    | none => (σ', false)

/-- A handler that is erased has the two stages of a split in its place, and if the policy fails
the handler is there and nothing else was added. -/
structure StagesReplace (targetFunc : ModuleFunc) (m m' : List ModuleFunc) (valid : Bool) :
    Prop where
  replaced : targetFunc ∉ m' → ∃ sinkOps bodies,
    functionSplitter targetFunc.func.name targetFunc.func.flatBlock sinkOps = some bodies ∧
      (cutStages m targetFunc bodies).1 ∈ m' ∧ (cutStages m targetFunc bodies).2 ∈ m'
  failure : valid = false → targetFunc ∈ m' ∧ m' ⊆ m

section Policy

variable {cutter : Cutter} {f : ModuleFunc} {m : List ModuleFunc}

/-- One of the functions that the search returns has clean tables. -/
theorem any_isTableClean_of_tableCutFrom {params : List (Nat × Nat)} {σ σ' : Search}
    {funcs : List ModuleFunc} (h : tableCutFrom cutter f params σ = some (σ', some funcs)) :
    (funcs.any fun g => isTableClean g.func) = true := by
  induction params generalizing σ with
  | nil => cases h
  | cons param params ih =>
    obtain ⟨⟨τ, funcs'⟩, -, hrest⟩ := Option.bind_eq_some_iff.mp h
    dsimp only at hrest
    split at hrest
    · next hclean =>
        cases hrest
        exact hclean
    · split at hrest
      · exact ih hrest
      · exact ih hrest

/-- If the tables of the handler are clean, the first cut ends the search. -/
theorem tableCut_of_isTableClean (hclean : isTableClean f.func = true) {σ σ' : Search}
    {result : Option (List ModuleFunc)} (h : tableCut cutter f σ = some (σ', result)) :
    ∃ funcs, result = some funcs ∧ stepSearch cutter σ (5, 1) f = some (σ', funcs) := by
  obtain ⟨⟨τ, funcs⟩, hstep, hrest⟩ := Option.bind_eq_some_iff.mp
    (show tableCutFrom cutter f ((5, 1) :: cutParams.tail) σ = _ from h)
  have hany : (funcs.any fun g => isTableClean g.func) = true := by
    rw [any_eq_true]
    cases hcut : cutter σ.calls (5, 1) f.func with
    | assertion => simp [stepSearch, hcut] at hstep
    | failed =>
      simp only [stepSearch, hcut] at hstep
      cases hstep
      exact ⟨f, mem_cons_self, hclean⟩
    | cut sinkOps sinkFirst =>
      simp only [stepSearch, hcut] at hstep
      obtain ⟨bodies, hbodies, hres⟩ := Option.map_eq_some_iff.mp hstep
      cases hres
      rcases isTableClean_stages hclean hbodies with hstage | hstage
      · exact ⟨(cutStages σ.module f bodies).1, by cases sinkFirst <;> simp, hstage⟩
      · exact ⟨(cutStages σ.module f bodies).2, by cases sinkFirst <;> simp, hstage⟩
  dsimp only at hrest
  rw [if_pos hany] at hrest
  cases hrest
  exact ⟨funcs, rfl, hstep⟩

theorem mem_eraseFuncs {g : ModuleFunc} : g ∈ eraseFuncs [f] m ↔ g ∈ m ∧ g.id ≠ f.id := by
  simp [eraseFuncs]

/-- The policy erases no handler without replacement if and only if the tables of the handler
are not clean or the first cut does not fail. -/
theorem tableCutPolicy_replaces_iff (cutter : Cutter) (targetFunc : ModuleFunc)
    (m : List ModuleFunc) (calls : Nat) (hids : (m.map ModuleFunc.id).Nodup)
    (htarget : targetFunc ∈ m) :
    (∀ σ' valid, tableCutPolicy cutter targetFunc ⟨m, calls⟩ = some (σ', valid) →
        StagesReplace targetFunc m σ'.module valid) ↔
      ¬ (isTableClean targetFunc.func = true ∧ cutter calls (5, 1) targetFunc.func = .failed) := by
  constructor
  · rintro h ⟨hclean, hfailed⟩
    have hcut : tableCutPolicy cutter targetFunc ⟨m, calls⟩ =
        some (⟨eraseFuncs [targetFunc] m, calls + 1⟩, true) := by
      have hstep : stepSearch cutter ⟨m, calls⟩ (5, 1) targetFunc =
          some (⟨m, calls + 1⟩, [targetFunc]) := by
        simp only [stepSearch, hfailed]
      have hfirst : tableCut cutter targetFunc ⟨m, calls⟩ =
          some (⟨m, calls + 1⟩, some [targetFunc]) := by
        change tableCutFrom cutter targetFunc ((5, 1) :: cutParams.tail) ⟨m, calls⟩ = _
        rw [tableCutFrom, hstep, Option.bind_some]
        simp [hclean]
      rw [tableCutPolicy, hfirst]
      rfl
    obtain ⟨_, bodies, -, hsrc, -⟩ := (h _ _ hcut).replaced fun hmem =>
      (mem_eraseFuncs.mp hmem).2 rfl
    exact cutStages_fresh _ mem_cons_self _ (mem_eraseFuncs.mp hsrc).1 rfl
  · intro h σ' valid hpolicy
    obtain ⟨⟨τ, result⟩, hcut, hres⟩ := Option.map_eq_some_iff.mp hpolicy
    rcases tableCutFrom_explored hcut with ⟨rfl, hmod⟩ | ⟨funcs, rfl, hexp⟩
    · cases hres
      rw [hmod]
      exact ⟨fun hnot => absurd htarget hnot, fun _ => ⟨htarget, List.Subset.refl m⟩⟩
    · cases hres
      refine ⟨fun _ => ?_, fun hvalid => by cases hvalid⟩
      generalize hmod : τ.module = m' at hexp
      cases hexp with
      | same =>
        have hclean := any_isTableClean_of_tableCutFrom hcut
        rw [any_cons, any_nil, Bool.or_false] at hclean
        obtain ⟨funcs, hfuncs, hstep⟩ := tableCut_of_isTableClean hclean hcut
        cases hfuncs
        refine absurd ⟨hclean, ?_⟩ h
        cases hcutter : cutter calls (5, 1) targetFunc.func with
        | assertion => simp [stepSearch, hcutter] at hstep
        | failed => rfl
        | cut sinkOps sinkFirst =>
          simp only [stepSearch, hcutter] at hstep
          obtain ⟨bodies, -, hres⟩ := Option.map_eq_some_iff.mp hstep
          have hlen := congrArg (fun r => r.2.length) hres
          cases sinkFirst <;> cases hlen
      | @split sinkOps bodies _ hsplit hparts =>
        have hnew : ∀ g ∈ [(cutStages m targetFunc bodies).1, (cutStages m targetFunc bodies).2],
            g ∈ eraseFuncs [targetFunc] (insertBefore targetFunc
              [(cutStages m targetFunc bodies).1, (cutStages m targetFunc bodies).2] m) :=
          fun g hg => mem_eraseFuncs.mpr ⟨(insertBefore_perm hids htarget _).mem_iff.mpr
            (mem_append_left m hg), cutStages_fresh g hg targetFunc htarget⟩
        exact ⟨sinkOps, bodies, hsplit, hnew _ (by simp), hnew _ (by simp)⟩

/-- The handler with two lookups is cut in two. -/
theorem tableCutPolicy_replaces_chain :
    (tableCutPolicy chainCutter (handlerFunc 1 chainOps) ⟨[handlerFunc 1 chainOps], 0⟩).isSome ∧
      ∀ σ' valid, tableCutPolicy chainCutter (handlerFunc 1 chainOps)
          ⟨[handlerFunc 1 chainOps], 0⟩ = some (σ', valid) →
        StagesReplace (handlerFunc 1 chainOps) [handlerFunc 1 chainOps] σ'.module valid :=
  ⟨by decide, (tableCutPolicy_replaces_iff chainCutter (handlerFunc 1 chainOps)
    [handlerFunc 1 chainOps] 0 (by decide) mem_cons_self).mpr (by decide)⟩

end Policy

/-! ## A handler with one update -/

/-- Update an entry of a table. -/
def updateHandler : ModuleFunc :=
  { emptyHandler 1 false with
    func := ⟨"__handler_NET_RECV", [⟨[(1, .int 64)],
      [.plain ⟨20, .globalImport "flows", [], [(3, .table (.int 64) (.int 64) 16)]⟩,
        .plain ⟨21, .update "flows", [3, 1, 1], []⟩], 22, .terminate⟩]⟩ }

def updateGraph : CutGraph where
  adj := .ofWrites (graphWrites policy updateHandler.func)
  falseEdges := falseEdges updateHandler.func
  pipelineConstraints := pipelineConstraints updateHandler.func

def updateTopo : Vertex → Nat
  | .globalSource => 4
  | .op 20 => 3
  | .value _ => 2
  | _ => 1

theorem updateGraph_input : RoundInput updateGraph (fun _ => 0) updateTopo := by
  apply RoundInput.of_cut
    {.globalSource, .blockSource 0, .op 20, .op 21, .op 22, .value 1, .value 3} <;> decide +kernel

/-- Almost all of the weight is on one side of every cut, so that the first cut fails. -/
theorem updateHandler_run : buildGraph policy updateHandler.func = some updateGraph ∧
      RunBalancedMinCut (.ofTolerance (5 / 10) (1 / 10))
        (vertexWeight policy updateHandler.func) updateGraph
        .sinkInfCapPath :=
  ⟨by decide +kernel, .done updateGraph_input (by decide +kernel)⟩

/-- The handler is erased, and nothing takes its place. -/
theorem tableCutPolicy_erases_updateHandler : (∃ g, buildGraph policy updateHandler.func = some g ∧
      RunBalancedMinCut (.ofTolerance (5 / 10) (1 / 10))
        (vertexWeight policy updateHandler.func) g
        .sinkInfCapPath) ∧
    (∃ σ', tableCutPolicy (fun _ _ _ => .failed) updateHandler ⟨[updateHandler], 0⟩ =
      some (σ', true) ∧ σ'.module = []) ∧
    ¬ StagesReplace updateHandler [updateHandler] [] true := by
  refine ⟨⟨updateGraph, updateHandler_run⟩, ⟨⟨[], 1⟩, by rfl, rfl⟩, fun h => ?_⟩
  obtain ⟨_, _, -, hsrc, -⟩ := h.replaced not_mem_nil
  cases hsrc

end Alkali
