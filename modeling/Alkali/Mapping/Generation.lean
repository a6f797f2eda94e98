import Alkali.Library.SplitTree
import Alkali.Mapping.Module

/-!
# `getPipeline`

The stages that splits leave in a module are put in order. Their indices are looked
up in a map, from the index of the original handler on.
-/

namespace Alkali

open List SplitTree

/-- The keys that a `DenseMap<int, …>` reserves; it asserts that they are not used. -/
def reservedKey (key : Int) : Bool := key == 2 ^ 31 - 1 || key == -2 ^ 31

/-- Place the stages with the index `generation` or that come from it; `none` when an
assertion fails or the fuel is used up. -/
def placeGeneration (funcMap : Int → Option ModuleFunc) : Nat → Int → Option (List ModuleFunc)
  | 0, _ => none
  | n + 1, generation =>
    if reservedKey generation then none
    else
      match funcMap generation with
      | some f => some [f]
      | none =>
        (placeGeneration funcMap n (wrapInt (generation * 2))).bind fun first =>
          (placeGeneration funcMap n (wrapInt (generation * 2 + 1))).map (first ++ ·)

/-- The handlers of a module that are not extern. -/
def stagesOf (m : List ModuleFunc) : List ModuleFunc := m.filter ModuleFunc.isStage

/-- The first stage with an index enters the map. -/
def funcMap (m : List ModuleFunc) (key : Int) : Option ModuleFunc :=
  (stagesOf m).find? fun f => f.generation == key

def getPipeline (n : Nat) (m : List ModuleFunc) : Option (List ModuleFunc) :=
  if (stagesOf m).any fun f => reservedKey f.generation then none
  else placeGeneration (funcMap m) n 1

/-- A split that was made. -/
structure SplitRecord where
  parent : FuncId
  source : FuncId
  sink : FuncId
  deriving DecidableEq, Repr

/-- A function of the module or one that a split has made. -/
def Known (m₀ : List ModuleFunc) (hist : List SplitRecord) (id : FuncId) : Prop :=
  id ∈ m₀.map ModuleFunc.id ∨ ∃ r ∈ hist, id = r.source ∨ id = r.sink

/-- The new functions of a split are new. -/
def FreshIn (m₀ : List ModuleFunc) (hist : List SplitRecord) (sourceId sinkId : FuncId) : Prop :=
  sourceId ≠ sinkId ∧ ¬ Known m₀ hist sourceId ∧ ¬ Known m₀ hist sinkId

/-- Splits one after the other, each of a stage into two new functions. The history
begins with the last split. -/
inductive SplitRun (m₀ : List ModuleFunc) : List SplitRecord → List ModuleFunc → Prop
  | start : SplitRun m₀ [] m₀
  | split {hist f sourceId sinkId source sink} (pre post : List ModuleFunc)
      (run : SplitRun m₀ hist (pre ++ f :: post)) (stage : f.isStage)
      (fresh : FreshIn m₀ hist sourceId sinkId) :
      SplitRun m₀ (⟨f.id, sourceId, sinkId⟩ :: hist)
        (pre ++ (f.splitInto sourceId sinkId source sink).1 ::
          (f.splitInto sourceId sinkId source sink).2 :: post)

/-- A stage descends from a function by splits of the history. -/
def Descends (hist : List SplitRecord) : FuncId → FuncId → Prop :=
  Relation.ReflTransGen fun a b => ∃ r ∈ hist, r.parent = a ∧ (b = r.source ∨ b = r.sink)

/-- The nested splits that lead to a function: `false` for a source, `true` for a sink. -/
def routeIn : List SplitRecord → FuncId → SplitTree.Route
  | [], _ => []
  | r :: hist, id =>
    if id = r.source then routeIn hist r.parent ++ [false]
    else if id = r.sink then routeIn hist r.parent ++ [true]
    else routeIn hist id

/-- The number of nested splits. -/
def nestingDepth (hist : List SplitRecord) (id : FuncId) : Nat := (routeIn hist id).length

section Run

open SplitTree (number)

variable {m₀ m : List ModuleFunc} {hist : List SplitRecord}

theorem Known.cons {id : FuncId} (h : Known m₀ hist id) (r : SplitRecord) :
    Known m₀ (r :: hist) id :=
  h.imp_right fun ⟨r', hr', hid⟩ => ⟨r', mem_cons_of_mem r hr', hid⟩

/-- What splits keep: the routes follow the history and lead to the leaves of a tree,
and the indices of the stages are the numbers of their routes. -/
structure Numbered (m₀ : List ModuleFunc) (hist : List SplitRecord) (m : List ModuleFunc) :
    Prop where
  known : ∀ f ∈ m, Known m₀ hist f.id
  parents : ∀ r ∈ hist, Known m₀ hist r.parent
  routes : ∀ r ∈ hist, routeIn hist r.source = routeIn hist r.parent ++ [false] ∧
    routeIn hist r.sink = routeIn hist r.parent ++ [true]
  index : ∀ f ∈ stagesOf m, (routeIn hist f.id).length ≤ 30 →
    f.generation = number (routeIn hist f.id)
  leaves : SplitTree.Leaves ((stagesOf m).map fun f => routeIn hist f.id)

variable {f₀ : ModuleFunc}

theorem Numbered.start (hone : stagesOf m₀ = [f₀]) (hnew : f₀.generationIndex = none) :
    Numbered m₀ [] m₀ where
  known _ hf := Or.inl (mem_map_of_mem hf)
  parents := nofun
  routes := nofun
  index f hf _ := by
    obtain rfl := mem_singleton.mp (hone ▸ hf)
    simp [ModuleFunc.generation, hnew, routeIn]
  leaves := ⟨.leaf, by simp [hone, routeIn, leavesFrom]⟩

variable {r : SplitTree.Route}

theorem number_lt {n : Nat} (hlen : r.length < n) : number r < 2 ^ n :=
  Nat.lt_of_lt_of_le (number_bounds r).2 (Nat.pow_le_pow_right (by decide) hlen)

/-- The index of a new stage is the number of its route. -/
theorem wrapInt_number (hlen : r.length < 30) (turn : Bool) :
    wrapInt ((number r : Int) * 2 + turn.toNat) = number (r ++ [turn]) := by
  have hturn := turn.toNat_le
  have hlt := number_lt hlen
  rw [wrapInt_of_lt (by omega) (by omega), number_concat]
  omega

theorem wrapInt_wrapInt_number (hlen : r.length < 30) (turn : Bool) :
    wrapInt (wrapInt ((number r : Int) * 2 + turn.toNat)) = number (r ++ [turn]) := by
  have hlt : number (r ++ [turn]) < 2 ^ 31 := number_lt (by
    rw [length_append, length_singleton]
    omega)
  rw [wrapInt_number hlen, wrapInt_of_lt (by omega) (by omega)]

section Split

variable {pre post : List ModuleFunc} {f : ModuleFunc} {sourceId sinkId : FuncId}
  {source sink : FuncOp}

theorem FreshIn.routeIn_of_known (hfresh : FreshIn m₀ hist sourceId sinkId) {id : FuncId}
    (h : Known m₀ hist id) (parent : FuncId) :
    routeIn (⟨parent, sourceId, sinkId⟩ :: hist) id = routeIn hist id := by
  have hsrc : id ≠ sourceId := fun heq => hfresh.2.1 (heq ▸ h)
  have hsink : id ≠ sinkId := fun heq => hfresh.2.2 (heq ▸ h)
  simp [routeIn, hsrc, hsink]

theorem FreshIn.routeIn_new (hfresh : FreshIn m₀ hist sourceId sinkId) (parent : FuncId) :
    routeIn (⟨parent, sourceId, sinkId⟩ :: hist) sourceId = routeIn hist parent ++ [false] ∧
      routeIn (⟨parent, sourceId, sinkId⟩ :: hist) sinkId = routeIn hist parent ++ [true] := by
  simp [routeIn, hfresh.1.symm]

theorem stagesOf_split (hf : f.isStage) :
    stagesOf (pre ++ (f.splitInto sourceId sinkId source sink).1 ::
        (f.splitInto sourceId sinkId source sink).2 :: post) =
      stagesOf pre ++ (f.splitInto sourceId sinkId source sink).1 ::
        (f.splitInto sourceId sinkId source sink).2 :: stagesOf post := by
  have hsrc : (f.splitInto sourceId sinkId source sink).1.isStage := hf
  have hsink : (f.splitInto sourceId sinkId source sink).2.isStage := rfl
  simp [stagesOf, hsrc, hsink]

theorem stagesOf_middle (hf : f.isStage) :
    stagesOf (pre ++ f :: post) = stagesOf pre ++ f :: stagesOf post := by
  simp [stagesOf, hf]

theorem splitInto_generation : (f.splitInto sourceId sinkId source sink).1.generation =
        wrapInt (wrapInt (f.generation * 2 + false.toNat)) ∧
      (f.splitInto sourceId sinkId source sink).2.generation =
        wrapInt (wrapInt (f.generation * 2 + true.toNat)) :=
  ⟨by rw [Bool.toNat_false, Int.natCast_zero, Int.add_zero]; rfl, rfl⟩

theorem mem_split {g s k : ModuleFunc} :
    g ∈ pre ++ s :: k :: post ↔ g = s ∨ g = k ∨ g ∈ pre ++ post := by
  simp only [mem_append, mem_cons]
  tauto

/-- One split keeps the numbering. -/
theorem Numbered.split (h : Numbered m₀ hist (pre ++ f :: post)) (hf : f.isStage)
    (hfresh : FreshIn m₀ hist sourceId sinkId) :
    Numbered m₀ (⟨f.id, sourceId, sinkId⟩ :: hist)
      (pre ++ (f.splitInto sourceId sinkId source sink).1 ::
        (f.splitInto sourceId sinkId source sink).2 :: post) := by
  have hparent : Known m₀ hist f.id := h.known f (by simp)
  have hother : ∀ g ∈ pre ++ post, Known m₀ hist g.id := fun g hg =>
    h.known g (by simp only [mem_append, mem_cons] at hg ⊢; tauto)
  have hold := fun id (hid : Known m₀ hist id) => hfresh.routeIn_of_known hid f.id
  obtain ⟨hsrc, hsink⟩ := hfresh.routeIn_new f.id
  refine ⟨fun g hg => ?_, fun r hr => ?_, fun r hr => ?_, fun g hg hlen => ?_, ?_⟩
  · rcases mem_split.mp hg with rfl | rfl | hg
    · exact Or.inr ⟨_, mem_cons_self, Or.inl rfl⟩
    · exact Or.inr ⟨_, mem_cons_self, Or.inr rfl⟩
    · exact (hother g hg).cons _
  · rcases mem_cons.mp hr with rfl | hr
    · exact hparent.cons _
    · exact (h.parents r hr).cons _
  · rcases mem_cons.mp hr with rfl | hr
    · rw [hold _ hparent]
      exact ⟨hsrc, hsink⟩
    · rw [hold _ (h.parents r hr), hold _ (Or.inr ⟨r, hr, Or.inl rfl⟩),
        hold _ (Or.inr ⟨r, hr, Or.inr rfl⟩)]
      exact h.routes r hr
  · have hidx : (routeIn hist f.id).length < 30 → f.generation = number (routeIn hist f.id) :=
      fun hlen => h.index f (by simp [stagesOf_middle hf]) (by omega)
    have hnew : ∀ turn : Bool, (routeIn hist f.id ++ [turn]).length ≤ 30 →
        wrapInt (wrapInt (f.generation * 2 + turn.toNat)) =
          number (routeIn hist f.id ++ [turn]) := by
      intro turn hlen
      rw [length_append, length_singleton] at hlen
      rw [hidx (by omega), wrapInt_wrapInt_number (by omega)]
    rw [stagesOf_split hf] at hg
    rcases mem_split.mp hg with rfl | rfl | hg
    · exact splitInto_generation.1.trans (hsrc ▸ hnew false (hsrc ▸ hlen))
    · exact splitInto_generation.2.trans (hsink ▸ hnew true (hsink ▸ hlen))
    · have hmem : g ∈ pre ++ post ∧ g.isStage := by
        rwa [stagesOf, stagesOf, ← filter_append, mem_filter] at hg
      rw [hold _ (hother g hmem.1)] at hlen ⊢
      refine h.index g ?_ hlen
      rw [stagesOf_middle hf]
      simp only [mem_append, mem_cons] at hg ⊢
      tauto
  · have hsame : ∀ l ⊆ pre ++ post, (stagesOf l).map (fun g => routeIn
        (⟨f.id, sourceId, sinkId⟩ :: hist) g.id) = (stagesOf l).map fun g => routeIn hist g.id :=
      fun l hl => map_congr_left fun g hg =>
        hold _ (hother g (hl (mem_of_mem_filter hg)))
    have hleaves := h.leaves
    rw [stagesOf_middle hf, map_append, map_cons] at hleaves
    rw [stagesOf_split hf, map_append, map_cons, map_cons,
      hsame pre (subset_append_left _ _), hsame post (subset_append_right _ _)]
    exact hsrc ▸ hsink ▸ hleaves.split

end Split

theorem SplitRun.numbered (hone : stagesOf m₀ = [f₀]) (hnew : f₀.generationIndex = none)
    (h : SplitRun m₀ hist m) : Numbered m₀ hist m := by
  induction h with
  | start => exact .start hone hnew
  | split _ _ _ hf hfresh ih => exact ih.split hf hfresh

theorem reservedKey_number (hlen : r.length < 30) : reservedKey (number r) = false := by
  have hlt := number_lt hlen
  simp only [reservedKey, Bool.or_eq_false_iff, beq_eq_false_iff_ne, ne_eq]
  omega

/-- `placeGeneration` goes on with the numbers of the two turns. -/
theorem placeGeneration_number (lookup : Int → Option ModuleFunc) (hlen : r.length < 30) (n : Nat) :
    placeGeneration lookup (n + 1) (number r) = match lookup (number r) with
      | some f => some [f]
      | none =>
        (placeGeneration lookup n (number (r ++ [false]))).bind fun first =>
          (placeGeneration lookup n (number (r ++ [true]))).map (first ++ ·) := by
  have hsrc := wrapInt_number hlen false
  have hsink := wrapInt_number hlen true
  rw [Bool.toNat_false, Int.natCast_zero, Int.add_zero] at hsrc
  rw [Bool.toNat_true, Int.natCast_one] at hsink
  rw [placeGeneration, reservedKey_number hlen, hsrc, hsink]
  rfl

theorem funcMap_eq_some {key : Int} {f : ModuleFunc} (h : funcMap m key = some f) :
    f ∈ stagesOf m ∧ f.generation = key := by
  exact ⟨mem_of_find?_eq_some h, by simpa using find?_some h⟩

section Place

variable (h : Numbered m₀ hist m)
  (hdepth : ∀ f ∈ stagesOf m, (routeIn hist f.id).length < 30)
include h hdepth

variable {r : SplitTree.Route}
variable {f : ModuleFunc} {t : SplitTree}

theorem Numbered.generation_eq_iff (hf : f ∈ stagesOf m) :
    f.generation = number r ↔ routeIn hist f.id = r := by
  rw [h.index f hf (Nat.le_of_lt (hdepth f hf)), Int.ofNat_inj]
  exact ⟨number_injective, fun heq => heq ▸ rfl⟩

/-- The map has the stage with a route, if there is one. -/
theorem Numbered.funcMap_of_mem (hf : f ∈ stagesOf m) :
    ∃ g ∈ stagesOf m, funcMap m (number (routeIn hist f.id)) = some g ∧
      routeIn hist g.id = routeIn hist f.id := by
  have hfound : (funcMap m (number (routeIn hist f.id))).isSome := by
    rw [funcMap, find?_isSome]
    exact ⟨f, hf, beq_iff_eq.mpr ((h.generation_eq_iff hdepth hf).mpr rfl)⟩
  obtain ⟨g, hg⟩ := Option.isSome_iff_exists.mp hfound
  obtain ⟨hmem, hkey⟩ := funcMap_eq_some hg
  exact ⟨g, hmem, hg, (h.generation_eq_iff hdepth hmem).mp hkey⟩

theorem Numbered.funcMap_of_not_mem (hr : ∀ f ∈ stagesOf m, routeIn hist f.id ≠ r) :
    funcMap m (number r) = none := by
  rw [funcMap, find?_eq_none]
  exact fun f hf heq => hr f hf ((h.generation_eq_iff hdepth hf).mp (beq_iff_eq.mp heq))

omit h in
theorem length_lt_of_leaves
    (hleaves : ∀ q ∈ t.leavesFrom r, ∃ f ∈ stagesOf m, routeIn hist f.id = q) : r.length < 30 := by
  obtain ⟨q, hq⟩ := t.exists_mem_leavesFrom r
  obtain ⟨f, hf, rfl⟩ := hleaves q hq
  exact Nat.lt_of_le_of_lt (prefix_of_mem_leavesFrom hq).length_le (hdepth f hf)

/-- The stages of a subtree are placed in order. -/
theorem Numbered.place (hleaves : ∀ q ∈ t.leavesFrom r, ∃ f ∈ stagesOf m, routeIn hist f.id = q)
    (hall : ∀ f ∈ stagesOf m, r <+: routeIn hist f.id → routeIn hist f.id ∈ t.leavesFrom r) :
    ∃ pl, (∀ n, 30 ≤ n + r.length → placeGeneration (funcMap m) n (number r) = some pl) ∧
      pl.map (fun f => routeIn hist f.id) = t.leavesFrom r ∧ pl ⊆ stagesOf m := by
  induction t generalizing r with
  | leaf =>
    obtain ⟨f, hf, rfl⟩ := hleaves r (mem_singleton_self r)
    obtain ⟨g, hg, hfound, hroute⟩ := h.funcMap_of_mem hdepth hf
    have hlen := hdepth f hf
    refine ⟨[g], fun n hn => ?_, by simp [hroute, leavesFrom], by simpa using hg⟩
    obtain ⟨n, rfl⟩ : ∃ k, n = k + 1 := ⟨n - 1, by omega⟩
    rw [placeGeneration_number _ hlen, hfound]
  | node t u iht ihu =>
    have hlen := length_lt_of_leaves hdepth hleaves
    have hnone : funcMap m (number r) = none :=
      h.funcMap_of_not_mem hdepth fun f hf heq =>
        not_mem_leavesFrom_node (heq ▸ hall f hf (heq ▸ prefix_rfl))
    -- every stage below this part is below one of the two turns
    have hsub := fun f hf turn (hpre : r ++ [turn] <+: routeIn hist f.id) =>
      mem_leavesFrom_of_turn (hall f hf ((prefix_append r [turn]).trans hpre))
    obtain ⟨first, hfirst, hfirstRoutes, hfirstMem⟩ := iht (r := r ++ [false])
      (fun q hq => hleaves q (mem_append_left _ hq))
      (fun f hf hpre => (hsub f hf false hpre).1 hpre)
    obtain ⟨second, hsecond, hsecondRoutes, hsecondMem⟩ := ihu (r := r ++ [true])
      (fun q hq => hleaves q (mem_append_right _ hq))
      (fun f hf hpre => (hsub f hf true hpre).2 hpre)
    refine ⟨first ++ second, fun n hn => ?_, ?_, append_subset.mpr ⟨hfirstMem, hsecondMem⟩⟩
    · obtain ⟨n, rfl⟩ : ∃ k, n = k + 1 := ⟨n - 1, by omega⟩
      have hturn : ∀ turn, 30 ≤ n + (r ++ [turn]).length := fun turn => by
        rw [length_append, length_singleton]
        omega
      simp only [placeGeneration_number _ hlen, hnone, hfirst n (hturn false),
        hsecond n (hturn true), Option.bind_some, Option.map_some]
    · rw [map_append, hfirstRoutes, hsecondRoutes, leavesFrom]

end Place

theorem Descends.prefix_routeIn (h : Numbered m₀ hist m) {a b : FuncId} (hab : Descends hist a b) :
    routeIn hist a <+: routeIn hist b := by
  induction hab with
  | refl => exact prefix_rfl
  | tail _ hstep ih =>
    obtain ⟨r, hr, rfl, rfl | rfl⟩ := hstep
    · exact ih.trans ((h.routes r hr).1 ▸ prefix_append _ _)
    · exact ih.trans ((h.routes r hr).2 ▸ prefix_append _ _)

/-- After any splits of the one handler of a module, `getPipeline` ends and returns
every stage once. For every split, the stages that descend from the source come before
those that descend from the sink. -/
theorem getPipeline_splits {f₀ : ModuleFunc} (hone : stagesOf m₀ = [f₀])
    (hnew : f₀.generationIndex = none) (hrun : SplitRun m₀ hist m)
    (hdepth : ∀ f ∈ stagesOf m, nestingDepth hist f.id < 30) :
    ∃ pipeline, (∀ n ≥ 30, getPipeline n m = some pipeline) ∧ pipeline.Perm (stagesOf m) ∧
      (pipeline.map ModuleFunc.id).Nodup ∧
      ∀ r ∈ hist, ∀ a ∈ pipeline, ∀ b ∈ pipeline, Descends hist r.source a.id →
        Descends hist r.sink b.id → [a, b].Sublist pipeline := by
  have h := hrun.numbered hone hnew
  obtain ⟨t, ht⟩ := h.leaves
  obtain ⟨pipeline, hplace, hroutes, hsub⟩ := h.place hdepth (t := t) (r := [])
    (fun q hq => by simpa using ht.mem_iff.mpr hq)
    (fun f hf _ => ht.mem_iff.mp (mem_map_of_mem hf))
  have hsorted : pipeline.Pairwise fun a b =>
      SplitTree.Before (routeIn hist a.id) (routeIn hist b.id) := by
    rw [← pairwise_map (f := fun f : ModuleFunc => routeIn hist f.id), hroutes]
    exact t.pairwise_leavesFrom []
  have hne : ∀ {a b : ModuleFunc}, SplitTree.Before (routeIn hist a.id) (routeIn hist b.id) →
      a.id ≠ b.id := fun hab heq => SplitTree.Before.irrefl _ (heq ▸ hab)
  have hids : (pipeline.map ModuleFunc.id).Nodup := pairwise_map.mpr (hsorted.imp hne)
  refine ⟨pipeline, fun n hn => ?_, ?_, hids, fun r hr a ha b hb hsrc hsink => ?_⟩
  · have hkeys : (stagesOf m).any (fun f => reservedKey f.generation) = false := by
      rw [any_eq_false]
      intro f hf
      rw [(h.generation_eq_iff hdepth hf).mpr rfl, reservedKey_number (hdepth f hf)]
      exact Bool.false_ne_true
    rw [getPipeline, hkeys]
    exact hplace n (by simpa using hn)
  · have hlen : pipeline.length = (stagesOf m).length := by
      rw [← length_map (f := fun f : ModuleFunc => routeIn hist f.id), hroutes,
        ← ht.length_eq, length_map]
    exact (subperm_of_subset hids.of_map hsub).perm_of_length_le (Nat.le_of_eq hlen.symm)
  · have hbefore : SplitTree.Before (routeIn hist a.id) (routeIn hist b.id) :=
      .of_turns ((h.routes r hr).1 ▸ hsrc.prefix_routeIn h)
        ((h.routes r hr).2 ▸ hsink.prefix_routeIn h)
    exact pair_sublist_of_pairwise hsorted ha hb (fun heq => hne hbefore (heq ▸ rfl))
      hbefore.asymm

end Run

/-- An empty handler. -/
def emptyHandler (id : FuncId) (isExtern : Bool) : ModuleFunc where
  id := id
  func := ⟨"__handler_NET_RECV", []⟩
  type := .handler
  isExtern := isExtern
  event := some "NET_RECV"
  atom := none
  generationIndex := none
  instances := none

/-- A module with an extern handler and a handler that is split, and whose source is
split again. -/
def splitTwice : List ModuleFunc :=
  let (source, sink) := (emptyHandler 1 false).splitInto 2 3 ⟨"s", []⟩ ⟨"k", []⟩
  let (source', sink') := source.splitInto 4 5 ⟨"ss", []⟩ ⟨"sk", []⟩
  [emptyHandler 0 true, source', sink', sink]

def twoSplits : List SplitRecord := [⟨2, 4, 5⟩, ⟨1, 2, 3⟩]

theorem splitTwice_run :
    SplitRun [emptyHandler 0 true, emptyHandler 1 false] twoSplits splitTwice :=
  .split [emptyHandler 0 true] [_]
    (.split [emptyHandler 0 true] [] .start rfl (by simp [FreshIn, Known, emptyHandler]))
    rfl (by simp [FreshIn, Known, emptyHandler])

/-- The pipeline of these splits. -/
theorem getPipeline_splitTwice : ∃ pipeline, (∀ n ≥ 30, getPipeline n splitTwice = some pipeline) ∧
      pipeline.Perm (stagesOf splitTwice) ∧ (pipeline.map ModuleFunc.id).Nodup ∧
      ∀ r ∈ twoSplits, ∀ a ∈ pipeline, ∀ b ∈ pipeline, Descends twoSplits r.source a.id →
        Descends twoSplits r.sink b.id → [a, b].Sublist pipeline :=
  getPipeline_splits rfl rfl splitTwice_run (by decide)

end Alkali
