import Alkali.Mapping.KCut
import Alkali.Pipeline.SplitCorrect

/-!
# The number of stages of a cut in `k`

A search for `k` stages of one handler splits one function in each step. One of its stages is
done, the other one is split next, whatever the weights of the cuts are. After the last split
both are done.
-/

namespace Alkali.KCut

open SplitFunction PipelineHandler List FuelLoop

variable (O : Oracle) (s : Search × SearchDirection)

/-- All calls of `pipelineHandler` in a search succeed. -/
def CallsSucceed : Prop :=
  ∀ t, Reaches (searchStep O) s t → ∀ x ∈ t.2, x.2.done = false → ∃ sinkOps sinkFirst sourceWeight,
      O.outcome t.1.calls x.2 x.1.func = (.cut sinkOps sinkFirst, sourceWeight)

/-- No split of a search erases something that is in use. -/
def Splittable : Prop :=
  ∀ t, Reaches (searchStep O) s t → ∀ x ∈ t.2, x.2.done = false → ∀ sinkOps sinkFirst sourceWeight,
      O.outcome t.1.calls x.2 x.1.func = (.cut sinkOps sinkFirst, sourceWeight) →
      (functionSplitter x.1.func.name x.1.func.flatBlock sinkOps).isSome

/-- The state in which a search has `k` stages of a handler beside other functions. -/
structure HasStages (t : Search × SearchDirection) (h : ModuleFunc) (k : Nat)
    (others stages : SearchDirection) : Prop where
  perm : t.2.Perm (stages ++ others)
  length : stages.length = k
  splits : SplitsAll [h] (stages.map Prod.fst)

/-- The search ends with exactly `k` stages of a handler, which are different functions. -/
def EndsWith (h : ModuleFunc) (k : Nat) (others : SearchDirection) : Prop :=
  ∃ n t stages, run (searchStep O) n s = some (some t) ∧
    HasStages t h k others stages ∧ ((t.2.map Prod.fst).map ModuleFunc.id).Nodup

/-- At most one function is not done. -/
def OneActive (sd : SearchDirection) : Prop :=
  (∀ x ∈ sd, x.2.done) ∨ ∃ x others, sd.Perm (x :: others) ∧ x.2.done = false ∧
    ∀ y ∈ others, y.2.done

section Splits

variable {fs gs : List ModuleFunc} {f : ModuleFunc}

/-- The stages of a stage are stages. -/
theorem SplitsAll.replace (pre post : List ModuleFunc) (h : SplitsAll fs (pre ++ f :: post))
    (hf : SplitsAll [f] gs) : SplitsAll fs (pre ++ gs ++ post) := by
  induction hf with
  | start => rwa [append_assoc, singleton_append]
  | perm _ hperm ih => exact .perm ih ((hperm.append_left pre).append_right post)
  | @split g sinkOps bodies sourceId sinkId pre' post' parts _ hsplit hparts ih =>
    have happend : pre ++ (pre' ++ g :: post') ++ post = pre ++ pre' ++ g :: (post' ++ post) := by
      simp only [append_assoc, cons_append]
    rw [happend] at ih
    have hnew := SplitsAll.split _ _ parts ih hsplit hparts
    simpa only [append_assoc] using hnew

end Splits

section Step

variable {O} {σ : Search} {sd others : SearchDirection} {x : ModuleFunc × Policy}

/-- In a step only the active function is split. -/
theorem stepSearch_active (hperm : sd.Perm (x :: others)) (hx : x.2.done = false)
    (hoth : ∀ y ∈ others, y.2.done) {sinkOps : List OpId} {sinkFirst : Bool} {w : Rat}
    (hcut : O.outcome σ.calls x.2 x.1.func = (.cut sinkOps sinkFirst, w)) :
    (functionSplitter x.1.func.name x.1.func.flatBlock sinkOps = none ∧ stepSearch O σ sd = none) ∨
      ∃ bodies σ' sd', functionSplitter x.1.func.name x.1.func.flatBlock sinkOps = some bodies ∧
        stepSearch O σ sd = some (σ', some sd') ∧
        sd'.Perm (((cutStages σ.module x.1 bodies).1, (x.2.splitPolicy w).1) ::
          ((cutStages σ.module x.1 bodies).2, (x.2.splitPolicy w).2) :: others) := by
  obtain ⟨pre, post, rfl⟩ := append_of_mem (hperm.mem_iff.mpr mem_cons_self)
  have hrest : (pre ++ post).Perm others :=
    (perm_middle.symm.trans hperm).cons_inv
  have hpre : ∀ y ∈ pre, y.2.done := fun y hy =>
    hoth y (hrest.mem_iff.mp (mem_append_left _ hy))
  have hpost : ∀ y ∈ post, y.2.done := fun y hy =>
    hoth y (hrest.mem_iff.mp (mem_append_right _ hy))
  have hall : ((pre ++ x :: post).all fun x => x.2.done) = false := by
    rw [all_append, all_cons, hx, Bool.false_and, Bool.and_false]
  have hfold : (pre ++ x :: post).foldlM (stepFunc O) (σ, []) =
      (stepFunc O (σ, pre) x).bind fun s => post.foldlM (stepFunc O) s := by
    rw [foldlM_append, foldlM_stepFunc_done hpre, nil_append]
    rfl
  have hstep : stepFunc O (σ, pre) x =
      (functionSplitter x.1.func.name x.1.func.flatBlock sinkOps).map fun bodies =>
        (⟨insertBefore x.1 [(cutStages σ.module x.1 bodies).1, (cutStages σ.module x.1 bodies).2]
            σ.module, σ.calls + 1⟩,
          pre ++ [((cutStages σ.module x.1 bodies).1, (x.2.splitPolicy w).1),
            ((cutStages σ.module x.1 bodies).2, (x.2.splitPolicy w).2)]) := by
    rw [stepFunc, if_neg (by rw [hx]; exact Bool.false_ne_true), hcut]
  rw [stepSearch, hfold, hstep]
  cases hbodies : functionSplitter x.1.func.name x.1.func.flatBlock sinkOps with
  | none => exact .inl ⟨rfl, rfl⟩
  | some bodies =>
    rw [Option.map_some, Option.bind_some, foldlM_stepFunc_done hpost, Option.map_some]
    simp only [hall, Bool.false_eq_true, if_false]
    refine .inr ⟨bodies, _, _, rfl, rfl, (O.order_perm _ _).trans ?_⟩
    rw [append_assoc, cons_append, singleton_append]
    refine perm_middle.trans (.cons _ (perm_middle.trans (.cons _ hrest)))

/-- Of the stages of a split, both or exactly one is done. -/
theorem splitPolicy_done (policy : Policy) (w : Rat) :
    (policy.splitPolicy w).1.numCuts = policy.numCuts - 1 ∧
      (policy.splitPolicy w).2.numCuts = policy.numCuts - 1 ∧
      (policy.numCuts = 2 → (policy.splitPolicy w).1.done ∧ (policy.splitPolicy w).2.done) ∧
      (policy.numCuts ≠ 2 → (policy.splitPolicy w).1.done = !(policy.splitPolicy w).2.done) := by
  refine ⟨rfl, rfl, fun htwo => ?_, fun htwo => ?_⟩
  · simp [Policy.splitPolicy, htwo]
  · have hne : (policy.numCuts - 1 == 1) = false := beq_false_of_ne (by omega)
    simp [Policy.splitPolicy, hne]

end Step

section Run

variable {O} {s : Search × SearchDirection}
variable {t : Search × SearchDirection} {others : SearchDirection}

theorem CallsSucceed.step (h : CallsSucceed O s) (hstep : searchStep O s = some (.inr t)) :
    CallsSucceed O t :=
  fun u hu => h u (.head hstep hu)

theorem Splittable.step (h : Splittable O s) (hstep : searchStep O s = some (.inr t)) :
    Splittable O t :=
  fun u hu => h u (.head hstep hu)

/-- After a split, one stage is left and the other one has its own stages. -/
theorem HasStages.split {h : ModuleFunc} {y z : ModuleFunc × Policy} {c : Nat}
    {stages : SearchDirection} (hstages : HasStages t y.1 c (z :: others) stages)
    (hsplit : SplitsAll [h] [y.1, z.1]) : HasStages t h (c + 1) others (stages ++ [z]) where
  perm := by
    rw [append_assoc, singleton_append]
    exact hstages.perm
  length := by rw [length_append, hstages.length, length_singleton]
  splits := by
    rw [map_append]
    exact SplitsAll.replace [] [z.1] hsplit hstages.splits

/-- A function with a policy for `c` stages comes to `c` stages. -/
theorem exists_hasStages (c : Nat) {x : ModuleFunc × Policy} (hc : 2 ≤ c)
    (hcuts : x.2.numCuts = c) (hx : x.2.done = false) (hoth : ∀ y ∈ others, y.2.done)
    (hperm : s.2.Perm (x :: others)) (hcalls : CallsSucceed O s) (hsplit : Splittable O s) :
    ∃ n t stages, run (searchStep O) n s = some (some t) ∧ HasStages t x.1 c others stages := by
  induction c generalizing s x others with
  | zero => omega
  | succ c ih =>
    have hmem : x ∈ s.2 := hperm.mem_iff.mpr mem_cons_self
    obtain ⟨sinkOps, sinkFirst, w, hcut⟩ := hcalls s .refl x hmem hx
    rcases stepSearch_active hperm hx hoth hcut with ⟨hnone, -⟩ |
      ⟨bodies, σ', sd', hbodies, hstep, hsd'⟩
    · have hsome := hsplit s .refl x hmem hx _ _ _ hcut
      rw [hnone] at hsome
      cases hsome
    · have hnext : searchStep O s = some (.inr (σ', sd')) := by rw [searchStep, hstep]
      obtain ⟨hsrc, hsink, hlast, hone⟩ := splitPolicy_done x.2 w
      have hstages : SplitsAll [x.1]
          [(cutStages s.1.module x.1 bodies).1, (cutStages s.1.module x.1 bodies).2] :=
        .split [] [] _ .start hbodies (List.Perm.refl _)
      by_cases htwo : c + 1 = 2
      · -- both stages are done
        obtain ⟨hdone, hdone'⟩ := hlast (by omega)
        have hall : ∀ y ∈ sd', y.2.done := by
          intro y hy
          rcases mem_cons.mp (hsd'.mem_iff.mp hy) with rfl | hy
          · exact hdone
          · rcases mem_cons.mp hy with rfl | hy
            · exact hdone'
            · exact hoth y hy
        exact ⟨2, (σ', sd'), [((cutStages s.1.module x.1 bodies).1, (x.2.splitPolicy w).1),
            ((cutStages s.1.module x.1 bodies).2, (x.2.splitPolicy w).2)],
          run_succ.mpr (.inr ⟨_, hnext, run_done hall⟩), hsd', htwo.symm, hstages⟩
      · -- the stage that is not done has a policy for one stage less
        have hxor := hone (by omega)
        have hrest : ∀ z : ModuleFunc × Policy, z.2.done = true →
            ∀ y ∈ z :: others, y.2.done := fun z hz => forall_mem_cons.mpr ⟨hz, hoth⟩
        cases hdone : (x.2.splitPolicy w).2.done with
        | true =>
          rw [hdone] at hxor
          obtain ⟨n, t, stages, hrun, hhas⟩ := ih (by omega) (by rw [hsrc]; omega) hxor
            (hrest _ hdone) hsd' (hcalls.step hnext) (hsplit.step hnext)
          exact ⟨n + 1, t, _, run_succ.mpr (.inr ⟨_, hnext, hrun⟩), hhas.split hstages⟩
        | false =>
          rw [hdone] at hxor
          obtain ⟨n, t, stages, hrun, hhas⟩ := ih (by omega) (by rw [hsink]; omega) hdone
            (hrest _ hxor) (hsd'.trans (.swap ..)) (hcalls.step hnext) (hsplit.step hnext)
          exact ⟨n + 1, t, _, run_succ.mpr (.inr ⟨_, hnext, hrun⟩),
            hhas.split (.perm hstages (.swap ..))⟩

theorem OneActive.perm {sd sd' : SearchDirection} (h : OneActive sd) (hperm : sd'.Perm sd) :
    OneActive sd' :=
  h.imp (fun hdone x hx => hdone x (hperm.mem_iff.mp hx))
    fun ⟨x, others, hx, hrest⟩ => ⟨x, others, hperm.trans hx, hrest⟩

/-- At most one of the stages of a split is not done. -/
theorem oneActive_split {y z : ModuleFunc × Policy}
    (h : y.2.done ∧ z.2.done ∨ y.2.done = !z.2.done) (hoth : ∀ x ∈ others, x.2.done) :
    OneActive (y :: z :: others) := by
  rcases h with ⟨hy, hz⟩ | hxor
  · exact .inl (forall_mem_cons.mpr ⟨hy, forall_mem_cons.mpr ⟨hz, hoth⟩⟩)
  · cases hz : z.2.done with
    | true => exact .inr ⟨y, _, .refl _, by rw [hxor, hz]; rfl, forall_mem_cons.mpr ⟨hz, hoth⟩⟩
    | false => exact .inr ⟨z, _, .swap .., hz, forall_mem_cons.mpr ⟨by rw [hxor, hz]; rfl, hoth⟩⟩

section

variable (hs : OneActive s.2) (hcalls : CallsSucceed O s)
include hs hcalls

theorem OneActive.step (hstep : searchStep O s = some (.inr t)) : OneActive t.2 := by
  have hnext := searchStep_inr hstep
  rcases hs with hdone | ⟨x, others, hperm, hx, hoth⟩
  · rw [stepSearch_done hdone] at hnext
    cases (Prod.mk.inj (Option.some.inj hnext)).2
  · obtain ⟨sinkOps, sinkFirst, w, hcut⟩ :=
      hcalls s .refl x (hperm.mem_iff.mpr mem_cons_self) hx
    rcases stepSearch_active hperm hx hoth hcut with ⟨-, hnone⟩ |
      ⟨bodies, σ', sd', -, hsome, hsd'⟩
    · cases hnone.symm.trans hnext
    · cases hsome.symm.trans hnext
      obtain ⟨-, -, hlast, hone⟩ := splitPolicy_done x.2 w
      refine (oneActive_split ?_ hoth).perm hsd'
      by_cases htwo : x.2.numCuts = 2
      · exact .inl (hlast htwo)
      · exact .inr (hone htwo)

theorem OneActive.reaches (hreach : Reaches (searchStep O) s t) : OneActive t.2 := by
  have hboth : OneActive t.2 ∧ CallsSucceed O t :=
    hreach.invariant (P := fun s => OneActive s.2 ∧ CallsSucceed O s) ⟨hs, hcalls⟩
      fun s t hs hstep => ⟨hs.1.step hs.2 hstep, hs.2.step hstep⟩
  exact hboth.1

/-- A search that ends with a result has come to no state with a cut that cannot be split. -/
theorem splittable_of_run {n : Nat} {u : Search × SearchDirection}
    (hrun : run (searchStep O) n s = some (some u)) : Splittable O s := by
  intro t ht x hmem hx sinkOps sinkFirst w hcut
  rcases hs.reaches hcalls ht with hdone | ⟨y, others, hperm, -, hoth⟩
  · rw [hdone x hmem] at hx
    cases hx
  · have hxy : x = y := by
      rcases mem_cons.mp (hperm.mem_iff.mp hmem) with rfl | hmem
      · rfl
      · rw [hoth x hmem] at hx
        cases hx
    subst hxy
    rcases stepSearch_active hperm hx hoth hcut with ⟨-, hnone⟩ | ⟨bodies, -, -, hbodies, -⟩
    · obtain ⟨m, hm⟩ := exists_run_of_reaches hrun ht
      have hassert : searchStep O t = some (.inl none) := by rw [searchStep, hnone]
      cases m with
      | zero => cases hm
      | succ m =>
        rcases run_succ.mp hm with hend | ⟨v, hgo, -⟩
        · cases hassert.symm.trans hend
        · cases hassert.symm.trans hgo
    · rw [hbodies]
      rfl

end

end Run

/-- A search for `k` stages of a handler, in which all calls of `pipelineHandler` succeed, ends
with exactly `k` stages if and only if no split erases something that is in use. -/
theorem endsWith_iff_splittable {k : Nat} (hk : 2 ≤ k) (tolerance : Double)
    {s : Search × SearchDirection} {h : ModuleFunc} {others : SearchDirection}
    {fs fixed : List ModuleFunc} (hinv : SearchInv fs fixed s.1 s.2)
    (hothers : ∀ y ∈ others, y.2.done)
    (hperm : s.2.Perm ((h, Policy.new k tolerance) :: others)) (hcalls : CallsSucceed O s) :
    EndsWith O s h k others ↔ Splittable O s := by
  constructor
  · rintro ⟨n, u, stages, hrun, -⟩
    exact splittable_of_run (.inr ⟨_, others, hperm, rfl, hothers⟩) hcalls hrun
  · intro hsplit
    obtain ⟨n, t, stages, hrun, hstages⟩ :=
      exists_hasStages k hk rfl rfl hothers hperm hcalls hsplit
    exact ⟨n, t, stages, hrun, hstages, (hinv.run hrun).nodup⟩

/-! ## A handler with a cache -/

theorem order_kept (_ : Nat) (sd : SearchDirection) : sd.Perm sd := List.Perm.refl sd

/-- The cut that leaves the first lookup in the source. -/
def cacheCuts : Oracle where
  outcome _ _ f := (.cut (sinkOps f cacheSource) false, 1 / 2)
  order _ sd := sd
  order_perm := order_kept

variable (guarded : PlainOp)

def cacheFunc : ModuleFunc :=
  ⟨0, cacheHandler guarded, .handler, false, some "NET_RECV", none, none, none⟩

/-- A search for two stages of the handler. -/
def cacheSearch : Search × SearchDirection :=
  (⟨[cacheFunc guarded], 0⟩, [(cacheFunc guarded, Policy.new 2 (.fin (1 / 10)))])

theorem cacheSearch_inv :
    SearchInv [cacheFunc guarded] [] (cacheSearch guarded).1 (cacheSearch guarded).2 where
  ids := nodup_singleton _
  subset := List.Subset.refl _
  nodup := nodup_singleton _
  stage := fun f hf => by
    rw [mem_singleton.mp hf]
    rfl
  others := rfl
  splits := .start

theorem cacheCuts_succeed : CallsSucceed cacheCuts s :=
  fun _ _ _ _ _ => ⟨_, _, _, rfl⟩

theorem cacheSearch_splittable : Splittable cacheCuts (cacheSearch guardedReturn) := by
  have hchecks : checks (searchStep cacheCuts) (fun t => t.2.all fun x => x.2.done ||
      (functionSplitter x.1.func.name x.1.func.flatBlock (sinkOps x.1.func cacheSource)).isSome)
      2 (cacheSearch guardedReturn) := by decide +kernel
  intro t ht x hmem hx sinkOps sinkFirst w hcut
  have hall := of_checks hchecks ht
  have hmem := all_eq_true.mp hall x hmem
  cases hcut
  rwa [hx, Bool.false_or] at hmem

theorem cacheSearch_endsWith : SearchInv [cacheFunc guardedReturn] [] (cacheSearch guardedReturn).1
        (cacheSearch guardedReturn).2 ∧
      CallsSucceed cacheCuts (cacheSearch guardedReturn) ∧
      EndsWith cacheCuts (cacheSearch guardedReturn) (cacheFunc guardedReturn) 2 [] :=
  ⟨cacheSearch_inv _, cacheCuts_succeed _,
    (endsWith_iff_splittable cacheCuts (by decide) _ (cacheSearch_inv _)
      (fun _ h => absurd h not_mem_nil) (.refl _) (cacheCuts_succeed _)).mpr
      cacheSearch_splittable⟩

/-- `pipelineHandler` accepts the cut of the handler with a guarded update, but splitting erases
the import of the table that is still in use. -/
theorem kcut_fails_on_guarded_update :
    Accepts NetronomeKCutPolicy.policy (.ofTolerance (1 / 2) (1 / 10))
        (cacheHandler guardedUpdate) cacheSource ∧
      CallsSucceed cacheCuts (cacheSearch guardedUpdate) ∧
      stepSearch cacheCuts (cacheSearch guardedUpdate).1 (cacheSearch guardedUpdate).2 = none ∧
      ¬ EndsWith cacheCuts (cacheSearch guardedUpdate) (cacheFunc guardedUpdate) 2 [] := by
  refine ⟨⟨cacheGraph, cacheHandler_run (Or.inr rfl)⟩, cacheCuts_succeed _, by decide +kernel, ?_⟩
  rintro ⟨n, u, stages, hrun, -⟩
  have hactive : OneActive (cacheSearch guardedUpdate).2 :=
    .inr ⟨_, [], .refl _, rfl, fun _ h => absurd h not_mem_nil⟩
  have hsplit := splittable_of_run hactive (cacheCuts_succeed _) hrun _ .refl _
    (mem_singleton_self _) rfl _ _ _ rfl
  exact absurd hsplit (by decide)

end Alkali.KCut
