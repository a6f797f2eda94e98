import Alkali.Library.Fallible
import Alkali.Mapping.Finalize

/-!
# `kcutPolicy`

The policy cuts every handler of the module, or one of them, with growing tolerances. The search
makes new functions and keeps the old ones; in the end all handlers are erased that are not in
its last state.

`pipelineHandler` is random, so that the outcome of its calls is a parameter, and so is the order
in which a map of functions lists them. Numbers are not rounded, but for the tolerance of the
loop.
-/

namespace Alkali.KCut

open SplitFunction List FuelLoop

/-! ## Numbers -/

/-- A `double`. -/
inductive Double
  | fin (q : Rat)
  | inf (negative : Bool)
  | nan
  deriving DecidableEq

namespace Double

def neg : Double → Double
  | fin q => fin (-q)
  | inf negative => inf !negative
  | nan => nan

def add : Double → Double → Double
  | fin p, fin q => fin (p + q)
  | fin _, inf negative => inf negative
  | inf negative, fin _ => inf negative
  | inf negative, inf negative' => if negative = negative' then inf negative else nan
  | _, _ => nan

/-- Zeros are positive. -/
def div : Double → Double → Double
  | fin p, fin q =>
    if q ≠ 0 then fin (p / q) else if p = 0 then nan else inf (p < 0)
  | fin _, inf _ => fin 0
  | inf negative, fin q => inf (negative != decide (q < 0))
  | _, _ => nan

/-- No comparison with `nan` holds. -/
def lt : Double → Double → Bool
  | fin p, fin q => p < q
  | fin _, inf negative => !negative
  | inf negative, fin _ => negative
  | inf negative, inf negative' => negative && !negative'
  | _, _ => false

end Double

/-- The nearest integer, an even one if there are two. -/
def roundHalfEven (x : Rat) : Int :=
  if x - x.floor < 1 / 2 ∨ x - x.floor = 1 / 2 ∧ x.floor % 2 = 0 then x.floor else x.floor + 1

/-- The nearest binary number with `p` digits, for numbers below `2 ^ p` that are not small. -/
def roundTo (p : Nat) (x : Rat) : Rat :=
  let shift := ((List.range 128).find? fun s => 2 ^ (p - 1) ≤ x * 2 ^ s).getD 0
  roundHalfEven (x * 2 ^ shift) / 2 ^ shift

/-- The `float` constant in which `t` starts. -/
def firstTolerance : Rat := roundTo 24 (1 / 10)

/-- `t += 0.1`: the sum is a `double`, and `t` a `float`. -/
def nextTolerance (t : Rat) : Rat := roundTo 24 (roundTo 53 (t + roundTo 53 (1 / 10)))

/-- The values of `t` in the loop. After nine steps `t` is above one. -/
def tolerances (k : Nat) : List Rat :=
  (List.iterate nextTolerance firstTolerance 10).takeWhile fun t => t < 1 / k

/-! ## The search -/

/-- `NetronomeKCutPolicy` -/
structure Policy where
  numCuts : Int
  sourceWeight : Double
  tolerance : Double
  done : Bool

namespace Policy

def new (k : Int) (tolerance : Double) : Policy :=
  ⟨k, (Double.fin 1).div (.fin k), tolerance, false⟩

variable (policy : Policy)

/-- The policies of the stages, from the weight of the source in the cut. -/
def splitPolicy (sourceWeight : Rat) : Policy × Policy :=
  let newCuts := policy.numCuts - 1
  let part := (Double.fin 1).div (.fin policy.numCuts)
  let localTol := policy.tolerance.div ((Double.fin 1).add part.neg)
  let noCutSource := (Double.fin sourceWeight).lt (part.add localTol)
  ({ new newCuts localTol with done := newCuts == 1 || noCutSource },
    { new newCuts localTol with done := newCuts == 1 || !noCutSource })

end Policy

/-- The functions of a search with their policies. -/
abbrev SearchDirection := List (ModuleFunc × Policy)

/-- The outcome of each call of `pipelineHandler`, with the weight of the source if there is a
cut, and the order of the functions after each step. -/
structure Oracle where
  outcome : Nat → Policy → FuncOp → CutOutcome × Rat
  order : Nat → SearchDirection → SearchDirection
  order_perm : ∀ n sd, (order n sd).Perm sd

variable (O : Oracle)

/-- What `stepSearch` does with a function. -/
def stepFunc (s : Search × SearchDirection) (x : ModuleFunc × Policy) :
    Option (Search × SearchDirection) :=
  if x.2.done then some (s.1, s.2 ++ [x])
  else
    match O.outcome s.1.calls x.2 x.1.func with
    | (.assertion, _) => none
    | (.failed, _) =>
      some (⟨s.1.module, s.1.calls + 1⟩, s.2 ++ [(x.1, { x.2 with done := true })])
    | (.cut sinkOps _, sourceWeight) =>
      (functionSplitter x.1.func.name x.1.func.flatBlock sinkOps).map fun bodies =>
        let (source, sink) := cutStages s.1.module x.1 bodies
        let (sourcePolicy, sinkPolicy) := x.2.splitPolicy sourceWeight
        (⟨insertBefore x.1 [source, sink] s.1.module, s.1.calls + 1⟩,
          s.2 ++ [(source, sourcePolicy), (sink, sinkPolicy)])

/-- `stepSearch`: there is no next direction if all functions are done. The new names that
`setSymName` gives the stages are left out: the search tells functions apart by identity. -/
def stepSearch (σ : Search) (sd : SearchDirection) : Option (Search × Option SearchDirection) :=
  (sd.foldlM (stepFunc O) (σ, [])).map fun (σ', choices) =>
    (σ', if sd.all fun x => x.2.done then none else some (O.order σ'.calls choices))

/-- One iteration of the search; a failed assertion ends it without a result. -/
def searchStep (s : Search × SearchDirection) :
    Option (Option (Search × SearchDirection) ⊕ (Search × SearchDirection)) :=
  some (match stepSearch O s.1 s.2 with
    | none => .inl none
    | some (σ, none) => .inl (some (σ, s.2))
    | some (σ, some sd) => .inr (σ, sd))

/-- The functions at the start of a search. All that are in the map before are in the module. -/
def startSearch (σ : Search) (k : Nat) (target : Option FuncId) (t : Rat) : SearchDirection :=
  O.order σ.calls ((stagesOf σ.module).map fun f =>
    (f, { Policy.new k (.fin t) with done := target.any fun id => f.id != id }))

/-- The loop over the tolerances. -/
def kcutLoop (n k : Nat) (target : Option FuncId) :
    List Rat → Search → SearchDirection → Option (Option (Search × SearchDirection))
  | [], σ, sd => some (some (σ, sd))
  | t :: ts, σ, _ =>
    (run (searchStep O) n (σ, startSearch O σ k target t)).bind fun result =>
      match result with
      | none => some none
      | some (σ', sd) =>
        if target.all fun id => id ∉ sd.map fun x => x.1.id then some (some (σ', sd))
        else kcutLoop n k target ts σ' sd

def cleanupFuncs (sd : SearchDirection) (m : List ModuleFunc) : List ModuleFunc :=
  m.filter fun f => !f.isStage || f.id ∈ sd.map fun x => x.1.id

/-- The module after `kcutPolicy`; there is none if an assertion fails. -/
def kcutPolicy (n : Nat) (m : List ModuleFunc) (k : Nat) (target : Option FuncId) :
    Option (Option (List ModuleFunc)) :=
  (kcutLoop O n k target (tolerances k) ⟨m, 0⟩ []).map fun result =>
    result.map fun (σ, sd) => cleanupFuncs sd σ.module

/-! ## What is kept -/

/-- The handlers of the module are those of the old one, or what splits have made of them. -/
structure Kept (m out : List ModuleFunc) : Prop where
  others : out.filter (fun f => !f.isStage) = m.filter fun f => !f.isStage
  stages : ∃ leaves : List (List ModuleFunc),
    List.Forall₂ (fun f fs => ∃ created, SplitsTo f fs created) (stagesOf m) leaves ∧
      (stagesOf out).Perm leaves.flatten

/-- If no handler is left there was none. -/
theorem Kept.stages_eq_nil {m out : List ModuleFunc} (h : Kept m out) (hout : stagesOf out = []) :
    stagesOf m = [] := by
  obtain ⟨leaves, hleaves, hperm⟩ := h.stages
  rw [hout, nil_perm] at hperm
  generalize stagesOf m = fs at hleaves
  cases hleaves with
  | nil => rfl
  | cons hsplits _ =>
    obtain ⟨created, hsplits⟩ := hsplits
    rw [flatten_cons, append_eq_nil_iff] at hperm
    exact absurd hperm.1 hsplits.ne_nil

/-- Functions are replaced by the stages of a split again and again. -/
inductive SplitsAll (fs : List ModuleFunc) : List ModuleFunc → Prop
  | start : SplitsAll fs fs
  | perm {gs hs} (before : SplitsAll fs gs) (order : gs.Perm hs) : SplitsAll fs hs
  | split {f sinkOps bodies sourceId sinkId} (pre post parts : List ModuleFunc)
      (before : SplitsAll fs (pre ++ f :: post))
      (split : functionSplitter f.func.name f.func.flatBlock sinkOps = some bodies)
      (stages : parts.Perm [(f.splitInto sourceId sinkId bodies.1 bodies.2).1,
        (f.splitInto sourceId sinkId bodies.1 bodies.2).2]) :
      SplitsAll fs (pre ++ parts ++ post)

theorem forall₂_replace {α β : Type} {R : α → β → Prop} {as : List α} {bs cs : List β} {b b' : β}
    (h : List.Forall₂ R as (bs ++ b :: cs)) (hb : ∀ a, R a b → R a b') :
    List.Forall₂ R as (bs ++ b' :: cs) := by
  induction bs generalizing as with
  | nil =>
    obtain ⟨a, as, hab, hrest, rfl⟩ := List.forall₂_cons_right_iff.mp h
    exact .cons (hb a hab) hrest
  | cons x bs ih =>
    obtain ⟨a, as, hax, hrest, rfl⟩ := List.forall₂_cons_right_iff.mp h
    exact .cons hax (ih hrest)

/-- Every function has leaves of its own. -/
theorem SplitsAll.leaves {fs gs : List ModuleFunc} (h : SplitsAll fs gs) :
    ∃ leaves : List (List ModuleFunc),
      List.Forall₂ (fun f fs => ∃ created, SplitsTo f fs created) fs leaves ∧
        gs.Perm leaves.flatten := by
  induction h with
  | start =>
    refine ⟨fs.map fun f => [f], ?_, ?_⟩
    · rw [List.forall₂_map_right_iff, List.forall₂_same]
      exact fun f _ => ⟨[], .start⟩
    · rw [← flatMap_def, flatMap_singleton']
  | perm _ hperm ih =>
    obtain ⟨leaves, hleaves, hgs⟩ := ih
    exact ⟨leaves, hleaves, hperm.symm.trans hgs⟩
  | @split f sinkOps bodies sourceId sinkId pre post parts _ hsplit hparts ih =>
    obtain ⟨leaves, hleaves, hgs⟩ := ih
    -- the function is one of the leaves of some handler
    have hf : f ∈ leaves.flatten := hgs.mem_iff.mp (by simp)
    obtain ⟨l, hl, hfl⟩ := mem_flatten.mp hf
    obtain ⟨before, after, rfl⟩ := append_of_mem hl
    obtain ⟨pre', post', rfl⟩ := append_of_mem hfl
    refine ⟨before ++ (pre' ++ parts ++ post') :: after, forall₂_replace hleaves ?_, ?_⟩
    · rintro g ⟨created, hg⟩
      exact ⟨_, .split pre' post' parts hg hsplit hparts⟩
    · rw [perm_iff_count] at hgs ⊢
      intro g
      have hcnt := hgs g
      simp only [flatten_append, flatten_cons, count_append, count_cons]
        at hcnt ⊢
      omega

/-! ## One step -/

/-- What the search keeps: the functions of its state are handlers of the module, and what splits
have made of those at the start. -/
structure SearchInv (fs others : List ModuleFunc) (σ : Search) (sd : SearchDirection) : Prop where
  ids : (σ.module.map ModuleFunc.id).Nodup
  subset : sd.map Prod.fst ⊆ σ.module
  nodup : ((sd.map Prod.fst).map ModuleFunc.id).Nodup
  stage : ∀ f ∈ sd.map Prod.fst, f.isStage
  others : (σ.module.filter fun f => !f.isStage) = others
  splits : SplitsAll fs (sd.map Prod.fst)

section Step

variable {O} {fs others : List ModuleFunc}
variable {s t : Search × SearchDirection} {x : ModuleFunc × Policy} {σ : Search}
  {sd : SearchDirection}

/-- A function stays and is done, or is replaced by the stages of a split. -/
theorem stepFunc_cases (h : stepFunc O s x = some t) :
    (t.1.module = s.1.module ∧ ∃ policy, policy.done = true ∧ t.2 = s.2 ++ [(x.1, policy)]) ∨
      x.2.done = false ∧ ∃ sinkOps bodies sourceWeight,
        functionSplitter x.1.func.name x.1.func.flatBlock sinkOps = some bodies ∧
        t.1.module = insertBefore x.1
          [(cutStages s.1.module x.1 bodies).1, (cutStages s.1.module x.1 bodies).2] s.1.module ∧
        t.2 = s.2 ++ [((cutStages s.1.module x.1 bodies).1, (x.2.splitPolicy sourceWeight).1),
          ((cutStages s.1.module x.1 bodies).2, (x.2.splitPolicy sourceWeight).2)] := by
  rw [stepFunc] at h
  split at h
  · next hdone =>
      cases h
      exact .inl ⟨rfl, x.2, hdone, rfl⟩
  · next hdone =>
      split at h
      · cases h
      · cases h
        exact .inl ⟨rfl, _, rfl, rfl⟩
      · next sinkOps _ sourceWeight _ =>
          obtain ⟨bodies, hbodies, rfl⟩ := Option.map_eq_some_iff.mp h
          exact .inr ⟨Bool.eq_false_iff.mpr hdone, sinkOps, bodies, sourceWeight, hbodies, rfl, rfl⟩

theorem stepFunc_explored (h : stepFunc O s x = some t) :
    ∃ parts, t.2 = s.2 ++ parts ∧ Explored x.1 s.1.module t.1.module (parts.map Prod.fst) := by
  rcases stepFunc_cases h with ⟨hmod, policy, -, hchoices⟩ |
    ⟨-, sinkOps, bodies, sourceWeight, hbodies, hmod, hchoices⟩
  · exact ⟨_, hchoices, hmod ▸ .same⟩
  · exact ⟨_, hchoices, hmod ▸ .split hbodies (List.Perm.refl _)⟩

theorem SearchInv.stepFunc {rest : SearchDirection}
    (hs : SearchInv fs others s.1 (s.2 ++ x :: rest)) (h : stepFunc O s x = some t) :
    SearchInv fs others t.1 (t.2 ++ rest) := by
  obtain ⟨parts, ht, hexp⟩ := stepFunc_explored h
  have hx : x.1 ∈ s.1.module := hs.subset (by simp)
  have hsub := hs.subset
  have hnd := hs.nodup
  have hsplits := hs.splits
  have hstage := hs.stage
  rw [map_append, map_cons] at hsub hnd hsplits hstage
  obtain ⟨hsub', hnd'⟩ := hexp.replace hs.ids hsub hnd
  have hmap : (t.2 ++ rest).map Prod.fst =
      s.2.map Prod.fst ++ parts.map Prod.fst ++ rest.map Prod.fst := by
    rw [ht, map_append, map_append]
  rw [← hmap] at hsub' hnd'
  refine ⟨hexp.nodup hs.ids hx, hsub', hnd', ?_, ?_, ?_⟩
  · rw [hmap]
    intro f hf
    rcases mem_append.mp hf with hf | hf
    · rcases mem_append.mp hf with hf | hf
      · exact hstage f (mem_append_left _ hf)
      · exact hexp.isStage (hs.stage x.1 (by simp)) f hf
    · exact hstage f (mem_append_right _ (mem_cons_of_mem _ hf))
  · rw [← hs.others]
    exact hexp.others (hs.stage x.1 (by simp))
  · rw [hmap]
    rcases hexp.cases hs.ids hx with ⟨hparts, -⟩ | ⟨-, -, _, _, _, _, hsplit, hparts⟩
    · rw [hparts, ← append_cons]
      exact hsplits
    · exact .split _ _ _ hsplits hsplit hparts

theorem foldlM_stepFunc_done (h : ∀ x ∈ sd, x.2.done) (choices : SearchDirection) :
    sd.foldlM (KCut.stepFunc O) (σ, choices) = some (σ, choices ++ sd) := by
  induction sd generalizing choices with
  | nil => rw [append_nil]; rfl
  | cons x sd ih =>
    obtain ⟨hx, hrest⟩ := forall_mem_cons.mp h
    have hstep : KCut.stepFunc O (σ, choices) x = some (σ, choices ++ [x]) := if_pos hx
    have happend : choices ++ x :: sd = choices ++ [x] ++ sd := append_cons choices x sd
    rw [foldlM_cons, hstep, happend]
    exact ih hrest _

theorem stepSearch_done (h : ∀ x ∈ sd, x.2.done) : stepSearch O σ sd = some (σ, none) := by
  rw [stepSearch, foldlM_stepFunc_done h, Option.map_some]
  simp only [all_eq_true.mpr h, if_true]

variable {sd' : SearchDirection} {σ' : Search}

theorem SearchInv.perm (h : SearchInv fs others σ sd) (hperm : sd'.Perm sd) :
    SearchInv fs others σ sd' := by
  have hfuncs := hperm.map Prod.fst
  exact ⟨h.ids, fun f hf => h.subset (hfuncs.mem_iff.mp hf),
    (hfuncs.map ModuleFunc.id).nodup_iff.mpr h.nodup,
    fun f hf => h.stage f (hfuncs.mem_iff.mp hf), h.others, .perm h.splits hfuncs.symm⟩

theorem stepSearch_some (h : stepSearch O σ sd = some (σ', some sd')) :
    ∃ choices, sd.foldlM (KCut.stepFunc O) (σ, []) = some (σ', choices) ∧ sd'.Perm choices := by
  obtain ⟨⟨τ, choices⟩, hfold, hnext⟩ := Option.map_eq_some_iff.mp h
  dsimp only at hnext
  split at hnext
  · cases hnext
  · cases hnext
    exact ⟨choices, hfold, O.order_perm _ _⟩

theorem stepSearch_none (h : stepSearch O σ sd = some (σ', none)) : σ' = σ := by
  obtain ⟨⟨τ, choices⟩, hfold, hnext⟩ := Option.map_eq_some_iff.mp h
  dsimp only at hnext
  split at hnext
  · next hdone =>
      rw [foldlM_stepFunc_done (all_eq_true.mp hdone)] at hfold
      cases hfold
      cases hnext
      rfl
  · cases hnext

/-- A step of the search keeps the invariant. -/
theorem SearchInv.stepSearch (hs : SearchInv fs others σ sd)
    (h : stepSearch O σ sd = some (σ', some sd')) : SearchInv fs others σ' sd' := by
  obtain ⟨choices, hfold, hperm⟩ := stepSearch_some h
  have hinv := Fallible.foldlM_rest (P := fun rest s => SearchInv fs others s.1 (s.2 ++ rest)) hs
    (fun _ _ _ _ hs hstep => hs.stepFunc hstep) hfold
  rw [append_nil] at hinv
  exact hinv.perm hperm

end Step

/-! ## The search for one tolerance -/

section Run

variable {O} {fs others : List ModuleFunc}
variable {s t : Search × SearchDirection}

theorem searchStep_inr (h : searchStep O s = some (.inr t)) :
    stepSearch O s.1 s.2 = some (t.1, some t.2) := by
  rw [searchStep] at h
  split at h
  · cases h
  · cases h
  · next hstep =>
      cases h
      exact hstep

theorem run_done (h : ∀ x ∈ s.2, x.2.done) : run (searchStep O) 1 s = some (some s) :=
  run_succ.mpr (.inl (by rw [searchStep, stepSearch_done h]))

variable {n : Nat}

/-- The search ends in the state that it has reached. -/
theorem reaches_of_run (h : run (searchStep O) n s = some (some t)) :
    Reaches (searchStep O) s t := by
  obtain ⟨u, hreach, hlast⟩ := exists_of_run h
  rw [searchStep] at hlast
  split at hlast
  · cases hlast
  · next hstep =>
      cases hlast
      rwa [stepSearch_none hstep]
  · cases hlast

theorem SearchInv.run (hs : SearchInv fs others s.1 s.2)
    (h : run (searchStep O) n s = some (some t)) : SearchInv fs others t.1 t.2 :=
  (reaches_of_run h).invariant (P := fun s => SearchInv fs others s.1 s.2) hs
    fun _ _ hs hstep => hs.stepSearch (searchStep_inr hstep)

end Run

/-! ## A search for one handler -/

/-- Before the cut of the only handler that is searched, the module and its handlers are as they
were; after it the handler is not among the functions of the search. -/
def TargetInv (m : List ModuleFunc) (id : FuncId) (σ : Search) (sd : SearchDirection) : Prop :=
  (σ.module = m ∧ ∀ x ∈ sd, x.1.id ≠ id → x.2.done) ∨
    id ∈ σ.module.map ModuleFunc.id ∧ id ∉ (sd.map Prod.fst).map ModuleFunc.id

section Target

variable {O} {fs others m : List ModuleFunc} {id : FuncId}

theorem TargetInv.stepFunc {s t : Search × SearchDirection} {x : ModuleFunc × Policy}
    {rest : SearchDirection} (hinv : SearchInv fs others s.1 (s.2 ++ x :: rest))
    (hs : TargetInv m id s.1 (s.2 ++ x :: rest)) (h : stepFunc O s x = some t) :
    TargetInv m id t.1 (t.2 ++ rest) := by
  obtain ⟨parts, hchoices, hexp⟩ := stepFunc_explored h
  have hx : x.1 ∈ s.1.module := hinv.subset (by simp)
  have hgrow : id ∈ s.1.module.map ModuleFunc.id → id ∈ t.1.module.map ModuleFunc.id :=
    fun hid => map_subset _ (hexp.subset hinv.ids hx) hid
  rcases hs with ⟨hmod, hoth⟩ | ⟨hid, hnot⟩
  · rcases stepFunc_cases h with ⟨hsame, policy, hdone, hchoices⟩ |
      ⟨hdone, _, bodies, _, _, _, hchoices⟩
    · refine .inl ⟨hsame.trans hmod, fun y hy hne => ?_⟩
      rw [hchoices, append_assoc, mem_append, mem_append, mem_singleton] at hy
      rcases hy with hy | rfl | hy
      · exact hoth y (mem_append_left _ hy) hne
      · exact hdone
      · exact hoth y (mem_append_right _ (mem_cons_of_mem _ hy)) hne
    · -- only the target is not done
      have hxid : x.1.id = id := by
        by_contra hne
        rw [hoth x (by simp) hne] at hdone
        cases hdone
      refine .inr ⟨hgrow (hxid ▸ mem_map_of_mem hx), ?_⟩
      have hnd := hinv.nodup
      simp only [map_append, map_cons, nodup_middle, nodup_cons, mem_append, not_or] at hnd
      obtain ⟨⟨hpre, hpost⟩, -⟩ := hnd
      have hfresh : ∀ g ∈ [(cutStages s.1.module x.1 bodies).1,
          (cutStages s.1.module x.1 bodies).2], x.1.id ≠ g.id := fun g hg =>
        Ne.symm (cutStages_fresh g hg x.1 hx)
      rw [hchoices]
      simp only [map_append, map_cons, map_nil, mem_append, mem_cons,
        not_mem_nil, or_false, not_or, ← hxid]
      exact ⟨⟨hpre, hfresh _ (by simp), hfresh _ (by simp)⟩, hpost⟩
  · refine .inr ⟨hgrow hid, ?_⟩
    have hparts : id ∉ (parts.map Prod.fst).map ModuleFunc.id := by
      rcases hexp.cases hinv.ids hx with ⟨hparts, -⟩ | ⟨-, hnd, -⟩
      · rw [hparts]
        simp only [map_append, map_cons, mem_append, mem_cons, not_or] at hnot
        simpa using hnot.2.1
      · rw [map_append, nodup_append] at hnd
        exact fun hmem => hnd.2.2 id hmem id hid rfl
    rw [hchoices]
    simp only [map_append, map_cons, mem_append, mem_cons, not_or] at hnot ⊢
    exact ⟨⟨hnot.1, hparts⟩, hnot.2.2⟩

/-- A search that still has the target has changed nothing. -/
theorem TargetInv.stepSearch {σ σ' : Search} {sd sd' : SearchDirection}
    (hinv : SearchInv fs others σ sd) (hs : TargetInv m id σ sd)
    (h : stepSearch O σ sd = some (σ', some sd')) : TargetInv m id σ' sd' := by
  obtain ⟨choices, hfold, hperm⟩ := stepSearch_some h
  have htgt := (Fallible.foldlM_rest (P := fun rest s =>
      SearchInv fs others s.1 (s.2 ++ rest) ∧ TargetInv m id s.1 (s.2 ++ rest))
    ⟨hinv, hs⟩
    (fun _ _ _ _ hs hstep => ⟨hs.1.stepFunc hstep, hs.2.stepFunc hs.1 hstep⟩) hfold).2
  rw [append_nil] at htgt
  refine htgt.imp (fun ⟨hmod, hdone⟩ => ⟨hmod, fun x hx => ?_⟩) fun ⟨hid, hnot⟩ => ?_
  · exact hdone x (hperm.mem_iff.mp hx)
  · exact ⟨hid, fun hmem => hnot (((hperm.map _).map _).mem_iff.mp hmem)⟩

/-- If the target is still among the functions of the search, the module is as before. -/
theorem module_eq_of_run {n : Nat} {s t : Search × SearchDirection}
    (hinv : SearchInv fs others s.1 s.2)
    (hoth : ∀ x ∈ s.2, x.1.id ≠ id → x.2.done)
    (h : run (searchStep O) n s = some (some t))
    (hid : id ∈ (t.2.map Prod.fst).map ModuleFunc.id) : t.1.module = s.1.module := by
  have ht := (reaches_of_run h).invariant
    (P := fun s' => SearchInv fs others s'.1 s'.2 ∧ TargetInv s.1.module id s'.1 s'.2)
    ⟨hinv, .inl ⟨rfl, hoth⟩⟩ fun s' t' hs' hstep =>
      ⟨hs'.1.stepSearch (searchStep_inr hstep), hs'.2.stepSearch hs'.1 (searchStep_inr hstep)⟩
  rcases ht.2 with ⟨hmod, -⟩ | ⟨-, hnot⟩
  · exact hmod
  · exact absurd hid hnot

end Target

/-! ## The policy -/

section Policy

variable {O} {m : List ModuleFunc} {k : Nat} {target : Option FuncId}
variable {σ : Search} {sd : SearchDirection}

/-- A search starts with the handlers of the module. -/
theorem SearchInv.startSearch (O : Oracle) (k : Nat) (target : Option FuncId)
    (hids : (m.map ModuleFunc.id).Nodup) (hσ : σ.module = m) (t : Rat) :
    SearchInv (stagesOf m) (m.filter fun f => !f.isStage) σ (startSearch O σ k target t) := by
  refine SearchInv.perm ?_ (O.order_perm _ _)
  have hfuncs : ((stagesOf σ.module).map fun f => (f,
      { Policy.new k (.fin t) with done := target.any fun id => f.id != id })).map Prod.fst =
        stagesOf m := by
    rw [map_map, hσ]
    exact map_id _
  refine ⟨hσ ▸ hids, ?_, ?_, ?_, by rw [hσ], ?_⟩
  · rw [hfuncs, hσ]
    exact filter_subset_self _
  · rw [hfuncs]
    exact hids.sublist (filter_sublist.map _)
  · rw [hfuncs]
    exact fun f hf => (mem_filter.mp hf).2
  · rw [hfuncs]
    exact .start

variable {ts : List Rat} {σ' : Search} {sd' : SearchDirection} {b : Nat}

theorem kcutLoop_inv (hids : (m.map ModuleFunc.id).Nodup) {n : Nat} (hσ : σ.module = m)
    (hsd : ts = [] → SearchInv (stagesOf m) (m.filter fun f => !f.isStage) σ sd)
    (h : kcutLoop O n k target ts σ sd = some (some (σ', sd'))) :
    SearchInv (stagesOf m) (m.filter fun f => !f.isStage) σ' sd' := by
  induction ts generalizing σ sd with
  | nil =>
    cases h
    exact hsd rfl
  | cons t ts ih =>
    obtain ⟨result, hrun, hrest⟩ := Option.bind_eq_some_iff.mp h
    cases result with
    | none => cases hrest
    | some result =>
      obtain ⟨τ, next⟩ := result
      have hstart := SearchInv.startSearch O k target hids hσ t
      have hinv := hstart.run hrun
      dsimp only at hrest
      split at hrest
      · cases hrest
        exact hinv
      · next hmem =>
          refine ih ?_ (fun _ => hinv) hrest
          obtain ⟨id, rfl⟩ : ∃ id, target = some id := by
            cases target with
            | none => exact absurd rfl hmem
            | some id => exact ⟨id, rfl⟩
          have hid : id ∈ (next.map Prod.fst).map ModuleFunc.id := by
            simpa using hmem
          refine (module_eq_of_run hstart (fun x hx hne => ?_) hrun hid).trans hσ
          obtain ⟨f, -, rfl⟩ := mem_map.mp ((O.order_perm _ _).mem_iff.mp hx)
          simpa using hne

/-- The handlers that are not erased are those of the search. -/
theorem SearchInv.kept (h : SearchInv (stagesOf m) (m.filter fun f => !f.isStage) σ sd) :
    Kept m (cleanupFuncs sd σ.module) := by
  have hstages : (stagesOf (cleanupFuncs sd σ.module)).Perm (sd.map Prod.fst) := by
    refine (perm_ext_iff_of_nodup ?_ h.nodup.of_map).mpr fun f => ?_
    · exact h.ids.of_map.sublist (filter_sublist.trans filter_sublist)
    · have hids : (sd.map fun x => x.1.id) = (sd.map Prod.fst).map ModuleFunc.id := by
        rw [map_map]
        rfl
      rw [stagesOf, cleanupFuncs, mem_filter, mem_filter, hids]
      constructor
      · rintro ⟨⟨hf, hmem⟩, hstage⟩
        rw [hstage, Bool.not_true, Bool.false_or, decide_eq_true_iff] at hmem
        obtain ⟨g, hg, hid⟩ := mem_map.mp hmem
        rwa [← inj_on_of_nodup_map h.ids (h.subset hg) hf hid]
      · intro hf
        refine ⟨⟨h.subset hf, ?_⟩, h.stage f hf⟩
        rw [Bool.or_eq_true, decide_eq_true_iff]
        exact .inr (mem_map_of_mem hf)
  obtain ⟨leaves, hleaves, hperm⟩ := h.splits.leaves
  refine ⟨?_, leaves, hleaves, hstages.trans hperm⟩
  rw [← h.others, cleanupFuncs, filter_filter]
  refine filter_congr fun f _ => ?_
  cases f.isStage <;> simp

/-! ## The search ends -/

/-- The functions that are not done have policies with two cuts at least. -/
def Bounded (b : Nat) (sd : SearchDirection) : Prop :=
  ∀ x ∈ sd, x.2.done = false → 2 ≤ x.2.numCuts ∧ x.2.numCuts ≤ b

theorem Bounded.stepFunc {s t : Search × SearchDirection} {x : ModuleFunc × Policy}
    (hx : x.2.done = false → 2 ≤ x.2.numCuts ∧ x.2.numCuts ≤ (b : Int) + 1) (hs : Bounded b s.2)
    (h : stepFunc O s x = some t) : Bounded b t.2 := by
  intro y hy hdone
  rcases stepFunc_cases h with ⟨-, policy, hpolicy, hchoices⟩ |
    ⟨hxdone, _, bodies, sourceWeight, -, -, hchoices⟩
  · rw [hchoices, mem_append, mem_singleton] at hy
    rcases hy with hy | rfl
    · exact hs y hy hdone
    · cases hpolicy.symm.trans hdone
  · obtain ⟨htwo, hle⟩ := hx hxdone
    rw [hchoices, mem_append] at hy
    rcases hy with hy | hy
    · exact hs y hy hdone
    · have hcuts : y.2.numCuts = x.2.numCuts - 1 ∧ (x.2.numCuts - 1 == 1) = false := by
        rcases mem_pair.mp hy with rfl | rfl <;>
        exact ⟨rfl, (Bool.or_eq_false_iff.mp hdone).1⟩
      obtain ⟨hcuts, hone⟩ := hcuts
      rw [beq_eq_false_iff_ne] at hone
      omega

theorem Bounded.stepSearch (hs : Bounded (b + 1) sd) (h : stepSearch O σ sd = some (σ', some sd')) :
    Bounded b sd' := by
  obtain ⟨choices, hfold, hperm⟩ := stepSearch_some h
  have hbounded := Fallible.foldlM_rest (P := fun rest s => Bounded (b + 1) rest ∧ Bounded b s.2)
    ⟨hs, fun x hx => by cases hx⟩
    (fun x rest s t hs hstep => by
      obtain ⟨hx, hrest⟩ := forall_mem_cons.mp hs.1
      exact ⟨hrest, hs.2.stepFunc (fun hdone => hx hdone) hstep⟩)
    hfold
  exact fun x hx => hbounded.2 x (hperm.mem_iff.mp hx)

theorem exists_run (b : Nat) {s : Search × SearchDirection} (hs : Bounded b s.2) :
    ∃ n result, run (searchStep O) n s = some result := by
  induction b generalizing s with
  | zero =>
    have hdone : ∀ x ∈ s.2, x.2.done := by
      intro x hx
      by_contra hnot
      have hbound := hs x hx (Bool.eq_false_iff.mpr hnot)
      omega
    exact ⟨1, some s, run_done hdone⟩
  | succ b ih =>
    cases hstep : searchStep O s with
    | none => cases hstep
    | some r =>
      rcases r with result | t
      · exact ⟨1, result, run_succ.mpr (.inl hstep)⟩
      · obtain ⟨n, result, hrun⟩ := ih (hs.stepSearch (searchStep_inr hstep))
        exact ⟨n + 1, result, run_succ.mpr (.inr ⟨t, hstep, hrun⟩)⟩

theorem kcutLoop_mono {n n' : Nat} (hle : n ≤ n') {result : Option (Search × SearchDirection)}
    (h : kcutLoop O n k target ts σ sd = some result) :
    kcutLoop O n' k target ts σ sd = some result := by
  induction ts generalizing σ sd with
  | nil => exact h
  | cons t ts ih =>
    obtain ⟨r, hrun, hrest⟩ := Option.bind_eq_some_iff.mp h
    refine Option.bind_eq_some_iff.mpr ⟨r, run_mono hrun hle, ?_⟩
    cases r with
    | none => exact hrest
    | some r =>
      dsimp only at hrest ⊢
      split at hrest
      · next hall => rwa [if_pos hall]
      · next hall =>
          rw [if_neg hall]
          exact ih hrest

/-- With two stages at least the policy ends. -/
theorem exists_kcutLoop (hk : 2 ≤ k) (ts : List Rat) (σ : Search) (sd : SearchDirection) :
    ∃ n result, kcutLoop O n k target ts σ sd = some result := by
  induction ts generalizing σ sd with
  | nil => exact ⟨0, _, rfl⟩
  | cons t ts ih =>
    have hbounded : Bounded k (startSearch O σ k target t) := by
      intro x hx _
      obtain ⟨f, -, rfl⟩ := mem_map.mp ((O.order_perm _ _).mem_iff.mp hx)
      exact ⟨Int.ofNat_le.mpr hk, Int.le_refl _⟩
    obtain ⟨n, r, hrun⟩ := exists_run (O := O) k (s := (σ, startSearch O σ k target t)) hbounded
    cases r with
    | none => exact ⟨n, none, Option.bind_eq_some_iff.mpr ⟨none, hrun, rfl⟩⟩
    | some r =>
      by_cases hall : (target.all fun id => id ∉ r.2.map fun x => x.1.id) = true
      · exact ⟨n, some r, Option.bind_eq_some_iff.mpr ⟨some r, hrun, if_pos hall⟩⟩
      · obtain ⟨n', result, hrest⟩ := ih r.1 r.2
        refine ⟨max n n', result, Option.bind_eq_some_iff.mpr
          ⟨some r, run_mono hrun (Nat.le_max_left n n'), ?_⟩⟩
        dsimp only
        rw [if_neg hall]
        exact kcutLoop_mono (Nat.le_max_right n n') hrest

end Policy

/-! ## The tolerances -/

theorem firstTolerance_eq : firstTolerance = 13421773 / 134217728 := by decide +kernel

/-- The constant is above one tenth. -/
theorem tolerances_eq_nil_iff {k : Nat} (hk : 1 ≤ k) : tolerances k = [] ↔ 10 ≤ k := by
  have hpos : (0 : Rat) < k := by exact_mod_cast hk
  have hfirst : firstTolerance < 1 / (k : Rat) ↔ k < 10 := by
    rw [firstTolerance_eq, lt_div_iff₀ hpos, div_mul_eq_mul_div, div_lt_one (by norm_num)]
    constructor
    · intro h
      have hnat : 13421773 * k < 134217728 := by exact_mod_cast h
      omega
    · intro h
      have hnat : 13421773 * k < 134217728 := by omega
      exact_mod_cast hnat
  rw [tolerances, List.iterate, takeWhile_cons]
  by_cases h : k < 10
  · rw [if_pos (decide_eq_true (hfirst.mpr h))]
    exact ⟨fun hnil => (cons_ne_nil _ _ hnil).elim, fun hten => by omega⟩
  · rw [if_neg (by simpa only [decide_eq_true_iff] using mt hfirst.mp h)]
    exact ⟨fun _ => Nat.not_lt.mp h, fun _ => rfl⟩

/-- Every handler is still in the module or has its stages there, and for two stages or more the
policy ends, if and only if there are less than ten stages or no handlers. -/
theorem kcutPolicy_kept_iff (O : Oracle) (m : List ModuleFunc) (k : Nat)
    (target : Option FuncId) (hk : 1 ≤ k) (hids : (m.map ModuleFunc.id).Nodup) :
    ((∀ n out, kcutPolicy O n m k target = some (some out) → Kept m out) ∧
        (2 ≤ k → ∃ n result, kcutPolicy O n m k target = some result)) ↔
      k < 10 ∨ stagesOf m = [] := by
  constructor
  · rintro ⟨h, -⟩
    by_contra hcon
    rw [not_or, Nat.not_lt] at hcon
    obtain ⟨hten, hstages⟩ := hcon
    have hpolicy : kcutPolicy O 0 m k target = some (some (cleanupFuncs [] m)) := by
      rw [kcutPolicy, (tolerances_eq_nil_iff hk).mpr hten]
      rfl
    have hnone : stagesOf (cleanupFuncs [] m) = [] := by
      refine filter_eq_nil_iff.mpr fun f hf hstage => ?_
      simp [cleanupFuncs, hstage] at hf
    exact hstages ((h 0 _ hpolicy).stages_eq_nil hnone)
  · intro hcond
    refine ⟨fun n out hout => ?_, fun htwo => ?_⟩
    · obtain ⟨result, hloop, hres⟩ := Option.map_eq_some_iff.mp hout
      obtain ⟨⟨σ, sd⟩, rfl, rfl⟩ := Option.map_eq_some_iff.mp hres
      refine SearchInv.kept (kcutLoop_inv hids rfl (fun hnil => ?_) hloop)
      have hnostages : stagesOf m = [] :=
        hcond.resolve_left (Nat.not_lt.mpr ((tolerances_eq_nil_iff hk).mp hnil))
      rw [hnostages]
      refine ⟨hids, nil_subset _, .nil, fun f hf => ?_, rfl, .start⟩
      cases hf
    · obtain ⟨n, result, hloop⟩ := exists_kcutLoop (O := O) htwo (tolerances k) ⟨m, 0⟩ []
      exact ⟨n, _, by rw [kcutPolicy, hloop]; rfl⟩

/-- The first cut is the one of `chainCutter`, with half of the weight in the source. -/
def chainCuts : Oracle where
  outcome n _ f := (chainCutter n (5, 1) f, 1 / 2)
  order _ sd := sd
  order_perm _ _ := List.Perm.refl _

/-- A handler that is cut in two. -/
theorem kcutPolicy_kept_two :
    (kcutPolicy chainCuts 3 [handlerFunc 1 chainOps] 2 none).map
        (Option.map fun out => out.map ModuleFunc.id) = some (some [2, 3]) ∧
      (∀ n out, kcutPolicy chainCuts n [handlerFunc 1 chainOps] 2 none = some (some out) →
        Kept [handlerFunc 1 chainOps] out) ∧
      (2 ≤ 2 → ∃ n result,
        kcutPolicy chainCuts n [handlerFunc 1 chainOps] 2 none = some result) :=
  ⟨by decide +kernel, (kcutPolicy_kept_iff chainCuts [handlerFunc 1 chainOps] 2 none (by decide)
    (by decide)).mpr (.inl (by decide))⟩

/-- For ten stages the loop does not start, and the handler is erased. -/
theorem kcutPolicy_erases_for_ten :
    kcutPolicy chainCuts 0 [emptyHandler 0 false] 10 none = some (some []) ∧
      ¬ Kept [emptyHandler 0 false] [] := by
  refine ⟨?_, fun h => ?_⟩
  · rw [kcutPolicy, (tolerances_eq_nil_iff (by decide)).mpr (Nat.le_refl 10)]
    rfl
  · cases h.stages_eq_nil rfl

end Alkali.KCut
