import Mathlib.Data.List.Basic

/-!
# The mutex of a handler

For a function with the attribute `sync_mutex`, `LowerLLVMPass` inserts `__rt_sync_lock` at the
start of the first block, and `__rt_sync_unlock` before the terminator of the last block in the
list. Only `HandlerRawPattern` copies the attribute to the lowered function. After that the calls
of the next handlers can be inlined, with the locks that were inserted into them.
-/

namespace Alkali.SyncMutex

open List

/-- The instructions of a lowered function. -/
inductive Instr
  | lock (mutex : String)
  | unlock (mutex : String)
  | table
  | call (callee : Nat)
  | other
  deriving DecidableEq, Repr

def Instr.isSync : Instr → Bool
  | lock _ | unlock _ => true
  | _ => false

/-- A block without successors returns. -/
structure Block where
  body : List Instr
  successors : List Nat
  deriving DecidableEq, Repr

/-- The instructions of a block. -/
def bodyOf (blocks : List Block) (b : Nat) : List Instr := ((blocks[b]?).map Block.body).getD []

def successorsOf (blocks : List Block) (b : Nat) : Option (List Nat) :=
  (blocks[b]?).map Block.successors

/-- A path from a block to a return. -/
inductive Path (succs : Nat → Option (List Nat)) : Nat → List Nat → Prop
  | ret {b} (h : succs b = some []) : Path succs b [b]
  | go {b cs c rest} (h : succs b = some cs) (hc : c ∈ cs) (hrest : Path succs c rest) :
      Path succs b (b :: rest)

/-- A function before the locks are inserted. Nothing leads to its entry. -/
structure LLVMFunc where
  blocks : List Block
  syncMutex : Option String
  calls : ∀ blk ∈ blocks, ∀ i ∈ blk.body, i.isSync = false
  entry : ∀ blk ∈ blocks, 0 ∉ blk.successors

/-- `generateMode` -/
inductive Mode
  | rt
  | call
  | raw
  deriving DecidableEq, Repr

/-- The options of the pass and the functions that calls name. -/
structure Lowering where
  mode : Mode
  inlineHandler : Bool
  funcs : List LLVMFunc

namespace LLVMFunc

variable (f : LLVMFunc) (m : String)

/-- The blocks after the calls are inserted. -/
def insertMutex : List Block :=
  f.blocks.mapIdx fun b blk =>
    { blk with
      body := (if b = 0 then [.lock m] else []) ++ blk.body ++
        if b + 1 = f.blocks.length then [.unlock m] else [] }

/-- The instructions of a block, after the lock. -/
def tail (b : Nat) : List Instr :=
  bodyOf f.blocks b ++ if b = f.blocks.length - 1 then [.unlock m] else []

end LLVMFunc

namespace Lowering

variable (L : Lowering)

/-- The attribute of the lowered function. -/
def mutexOf (f : LLVMFunc) : Option String :=
  match L.mode with
  | .raw => f.syncMutex
  | .rt | .call => none

/-- A function with its locks. -/
def lowered (f : LLVMFunc) : List Block :=
  match L.mutexOf f with
  | some m => f.insertMutex m
  | none => f.blocks

/-- The function that a call is replaced by. -/
def inlined : Instr → Option LLVMFunc
  | .call callee => if L.inlineHandler then L.funcs[callee]? else none
  | _ => none

/-- What instructions execute, with the calls that are inlined. -/
inductive Expand : List Instr → List Instr → Prop
  | nil : Expand [] []
  | keep {i is t} (hi : L.inlined i = none) (h : Expand is t) : Expand (i :: is) (i :: t)
  | inline {i f p u is t} (hi : L.inlined i = some f)
      (hp : Path (successorsOf (L.lowered f)) 0 p)
      (hu : Expand (p.flatMap (bodyOf (L.lowered f))) u) (h : Expand is t) :
      Expand (i :: is) (u ++ t)

/-- What an execution of a function from its entry to a return does. -/
def Executes (f : LLVMFunc) (t : List Instr) : Prop :=
  ∃ p, Path (successorsOf (L.lowered f)) 0 p ∧ L.Expand (p.flatMap (bodyOf (L.lowered f))) t

end Lowering

/-- The mutex is locked once before all table accesses and unlocked once after them. -/
def Synced (m : String) (t : List Instr) : Prop :=
  ∃ pre mid post, t = pre ++ .lock m :: (mid ++ .unlock m :: post) ∧
    (∀ i ∈ pre ++ post, i ≠ .table ∧ i ≠ .lock m ∧ i ≠ .unlock m) ∧
    ∀ i ∈ mid, i ≠ .lock m ∧ i ≠ .unlock m

/-- The path visits the last block once. It accesses no table after that, and nothing that is
inlined on it locks the mutex. -/
def Lowering.UnlocksOnce (L : Lowering) (f : LLVMFunc) (m : String) (path : List Nat) : Prop :=
  ∃ pre post, path = pre ++ (f.blocks.length - 1) :: post ∧ f.blocks.length - 1 ∉ pre ++ post ∧
    (∀ b ∈ path, ∀ i ∈ bodyOf f.blocks b, ∀ t, L.Expand [i] t → .lock m ∉ t) ∧
    ∀ b ∈ post, ∀ i ∈ bodyOf f.blocks b, ∀ t, L.Expand [i] t → .table ∉ t

/-! ## Paths -/

section Paths

variable {f : LLVMFunc} {m : String} {b : Nat} {p : List Nat}

theorem successorsOf_insertMutex : successorsOf (f.insertMutex m) = successorsOf f.blocks := by
  funext b
  simp [successorsOf, LLVMFunc.insertMutex, Function.comp_def]

theorem successorsOf_lowered (L : Lowering) :
    successorsOf (L.lowered f) = successorsOf f.blocks := by
  rw [Lowering.lowered]
  split
  · exact successorsOf_insertMutex
  · rfl

theorem lt_of_successorsOf {cs : List Nat} (h : successorsOf f.blocks b = some cs) :
    b < f.blocks.length := by
  obtain ⟨blk, hblk, -⟩ := Option.map_eq_some_iff.mp h
  exact (List.getElem?_eq_some_iff.mp hblk).1

/-- A path starts in its block and never enters the first one. -/
theorem path_cases (h : Path (successorsOf f.blocks) b p) :
    ∃ rest, p = b :: rest ∧ 0 ∉ rest ∧ ∀ c ∈ p, c < f.blocks.length := by
  induction h with
  | ret h => exact ⟨[], rfl, not_mem_nil, by simp [lt_of_successorsOf h]⟩
  | @go b cs c rest h hc _ ih =>
    obtain ⟨rest, rfl, hrest, hlt⟩ := ih
    have hent : c ≠ 0 := by
      rintro rfl
      obtain ⟨blk, hblk, rfl⟩ := Option.map_eq_some_iff.mp h
      exact f.entry blk (mem_of_getElem? hblk) hc
    exact ⟨_, rfl, by simp [hent.symm, hrest], forall_mem_cons.mpr ⟨lt_of_successorsOf h, hlt⟩⟩

theorem flatMap_insertMutex (h : Path (successorsOf f.blocks) 0 p) :
    p.flatMap (bodyOf (f.insertMutex m)) = .lock m :: p.flatMap (f.tail m) := by
  obtain ⟨rest, rfl, hrest, hlt⟩ := path_cases h
  have hbody : ∀ c ∈ 0 :: rest, bodyOf (f.insertMutex m) c =
      (if c = 0 then [.lock m] else []) ++ f.tail m c := by
    intro c hc
    have hc := hlt c hc
    have hlast : c + 1 = f.blocks.length ↔ c = f.blocks.length - 1 := by omega
    simp [bodyOf, LLVMFunc.insertMutex, LLVMFunc.tail, hc, hlast]
  rw [flatMap_cons, flatMap_cons, hbody 0 mem_cons_self,
    flatMap_congr fun c hc => hbody c (mem_cons_of_mem _ hc),
    flatMap_congr fun c hc => congrArg (· ++ f.tail m c) (if_neg (ne_of_mem_of_not_mem hc hrest))]
  rfl

theorem isSync_of_mem {i : Instr} (h : i ∈ bodyOf f.blocks b) : i.isSync = false := by
  cases hb : f.blocks[b]? with
  | none => simp [bodyOf, hb] at h
  | some blk =>
    rw [bodyOf, hb] at h
    exact f.calls blk (mem_of_getElem? hb) i h

/-- Blocks other than the last one keep their instructions. -/
theorem mem_flatMap_tail {bs : List Nat} (hbs : f.blocks.length - 1 ∉ bs) {i : Instr} :
    i ∈ bs.flatMap (f.tail m) ↔ ∃ c ∈ bs, i ∈ bodyOf f.blocks c := by
  rw [mem_flatMap]
  refine exists_congr fun c => and_congr_right fun hc => ?_
  rw [LLVMFunc.tail, if_neg (ne_of_mem_of_not_mem hc hbs), append_nil]

theorem unlock_not_mem_tail {bs : List Nat} (hbs : f.blocks.length - 1 ∉ bs) :
    .unlock m ∉ bs.flatMap (f.tail m) := by
  intro h
  obtain ⟨c, -, hi⟩ := (mem_flatMap_tail hbs).mp h
  cases isSync_of_mem hi

theorem flatMap_tail_append (pre post : List Nat) :
    (pre ++ (f.blocks.length - 1) :: post).flatMap (f.tail m) =
      (pre.flatMap (f.tail m) ++ bodyOf f.blocks (f.blocks.length - 1)) ++
        .unlock m :: post.flatMap (f.tail m) := by
  simp [LLVMFunc.tail]

end Paths

/-! ## Inlining -/

namespace Lowering

variable {L : Lowering} {i : Instr} {is js t u : List Instr} {m : String}

theorem Expand.append (h : L.Expand is t) (h' : L.Expand js u) : L.Expand (is ++ js) (t ++ u) := by
  induction h with
  | nil => exact h'
  | keep hi _ ih => exact .keep hi ih
  | inline hi hp hu _ _ ih =>
    rw [append_assoc]
    exact .inline hi hp hu ih

theorem exists_of_expand_append (h : L.Expand (is ++ js) t) :
    ∃ a b, t = a ++ b ∧ L.Expand is a ∧ L.Expand js b := by
  induction is generalizing t with
  | nil => exact ⟨[], t, rfl, .nil, h⟩
  | cons i is ih =>
    cases h with
    | keep hi h =>
      obtain ⟨a, b, rfl, ha, hb⟩ := ih h
      exact ⟨i :: a, b, rfl, .keep hi ha, hb⟩
    | @inline _ f p u _ t hi hp hu h =>
      obtain ⟨a, b, rfl, ha, hb⟩ := ih h
      exact ⟨u ++ a, b, (append_assoc ..).symm, .inline hi hp hu ha, hb⟩

/-- What is executed comes from one of the instructions. -/
theorem exists_of_mem_expand (h : L.Expand is t) (hi : i ∈ t) :
    ∃ j ∈ is, ∃ u, L.Expand [j] u ∧ i ∈ u := by
  induction h with
  | nil => cases hi
  | @keep j is t hj _ ih =>
    rcases mem_cons.mp hi with rfl | hi
    · exact ⟨i, mem_cons_self, [i], .keep hj .nil, mem_cons_self⟩
    · obtain ⟨k, hk, hrest⟩ := ih hi
      exact ⟨k, mem_cons_of_mem _ hk, hrest⟩
  | @inline j f p u is t hj hp hu _ _ ih =>
    rcases mem_append.mp hi with hi | hi
    · exact ⟨j, mem_cons_self, u ++ [], .inline hj hp hu .nil, by simpa using hi⟩
    · obtain ⟨k, hk, hrest⟩ := ih hi
      exact ⟨k, mem_cons_of_mem _ hk, hrest⟩

theorem mem_expand (h : L.Expand is t) (hi : i ∈ is) (hkeep : L.inlined i = none) : i ∈ t := by
  induction h with
  | nil => cases hi
  | keep _ _ ih => exact mem_cons.mpr ((mem_cons.mp hi).imp_right ih)
  | inline hj _ _ _ _ ih =>
    rcases mem_cons.mp hi with rfl | hi
    · cases hkeep.symm.trans hj
    · exact mem_append_right _ (ih hi)

/-- A function that locks or unlocks does so with its mutex, and locks it. -/
theorem exists_mutex_of_mem {f : LLVMFunc} {p : List Nat}
    (hp : Path (successorsOf (L.lowered f)) 0 p)
    (hi : i ∈ p.flatMap (bodyOf (L.lowered f))) (hsync : i.isSync = true) :
    ∃ m, L.mutexOf f = some m ∧ (i = .lock m ∨ i = .unlock m) ∧
      .lock m ∈ p.flatMap (bodyOf (L.lowered f)) := by
  have hplain : ∀ {c}, i ∉ bodyOf f.blocks c := fun hc => by simp [isSync_of_mem hc] at hsync
  rw [successorsOf_lowered] at hp
  rw [lowered] at hi ⊢
  split at hi
  · next m hm =>
      rw [flatMap_insertMutex hp, mem_cons, mem_flatMap] at hi
      refine ⟨m, hm, ?_, by simp [flatMap_insertMutex hp]⟩
      rcases hi with rfl | ⟨c, -, hc⟩
      · exact Or.inl rfl
      · rcases mem_append.mp hc with hc | hc
        · exact absurd hc hplain
        · split at hc
          · exact Or.inr (mem_singleton.mp hc)
          · cases hc
  · obtain ⟨c, -, hc⟩ := mem_flatMap.mp hi
    exact absurd hc hplain

/-- A function that is inlined and unlocks a mutex locks it first. -/
theorem lock_of_unlock (h : L.Expand is t) (hi : .unlock m ∈ t) :
    .unlock m ∈ is ∨ .lock m ∈ t := by
  induction h with
  | nil => cases hi
  | keep _ _ ih =>
    rcases mem_cons.mp hi with rfl | hi
    · exact Or.inl mem_cons_self
    · exact (ih hi).imp (mem_cons_of_mem _) (mem_cons_of_mem _)
  | inline _ hp hu _ ihu ih =>
    rcases mem_append.mp hi with hi | hi
    · refine Or.inr (mem_append_left _ ((ihu hi).elim (fun hbody => ?_) id))
      obtain ⟨m', -, heq, hlock⟩ := exists_mutex_of_mem hp hbody rfl
      cases heq.resolve_left nofun
      exact mem_expand hu hlock rfl
    · exact (ih hi).imp (mem_cons_of_mem _) (mem_append_right _)

/-- The function of a call that is inlined. -/
theorem mem_funcs_of_inlined {f : LLVMFunc} (h : L.inlined i = some f) : f ∈ L.funcs := by
  cases i with
  | call callee =>
    rw [inlined] at h
    split at h
    · exact mem_of_getElem? h
    · cases h
  | _ => cases h

/-- Functions without a mutex do not lock it. -/
theorem lock_of_lock (hfree : ∀ f ∈ L.funcs, L.mutexOf f ≠ some m) (h : L.Expand is t)
    (hi : .lock m ∈ t) : .lock m ∈ is := by
  induction h with
  | nil => cases hi
  | keep _ _ ih => exact mem_cons.mpr ((mem_cons.mp hi).imp_right ih)
  | inline hj hp _ _ ihu ih =>
    rcases mem_append.mp hi with hi | hi
    · obtain ⟨m', hm', heq, -⟩ := exists_mutex_of_mem hp (ihu hi) rfl
      cases heq.resolve_right nofun
      exact absurd hm' (hfree _ (mem_funcs_of_inlined hj))
    · exact mem_cons_of_mem _ (ih hi)

section Returns

variable (hret : ∀ f ∈ L.funcs, ∃ t, L.Executes f t)
include hret

theorem exists_expand (is : List Instr) : ∃ t, L.Expand is t := by
  induction is with
  | nil => exact ⟨[], .nil⟩
  | cons i is ih =>
    obtain ⟨t, ht⟩ := ih
    cases hi : L.inlined i with
    | none => exact ⟨_, .keep hi ht⟩
    | some f =>
      obtain ⟨u, p, hp, hu⟩ := hret f (mem_funcs_of_inlined hi)
      exact ⟨_, .inline hi hp hu ht⟩

/-- What one of the instructions can do is part of an execution. -/
theorem exists_expand_of_mem (hi : i ∈ is) (hu : L.Expand [i] u) :
    ∃ t, L.Expand is t ∧ u ⊆ t := by
  obtain ⟨before, after, rfl⟩ := append_of_mem hi
  obtain ⟨a, ha⟩ := exists_expand hret before
  obtain ⟨b, hb⟩ := exists_expand hret after
  refine ⟨a ++ (u ++ b), ha.append (hu.append hb), fun j hj => ?_⟩
  exact mem_append_right _ (mem_append_left _ hj)

end Returns

end Lowering

/-! ## Executions -/

theorem synced_lock_iff {m : String} {t : List Instr} : Synced m (.lock m :: t) ↔
      .lock m ∉ t ∧ ∃ mid post, t = mid ++ .unlock m :: post ∧ .unlock m ∉ mid ∧
        .unlock m ∉ post ∧ .table ∉ post := by
  constructor
  · rintro ⟨pre, mid, post, heq, hother, hmid⟩
    obtain rfl : pre = [] := by
      cases pre with
      | nil => rfl
      | cons i pre => exact absurd (cons.inj heq).1.symm (hother i mem_cons_self).2.1
    obtain rfl := (cons.inj heq).2
    refine ⟨fun h => ?_, mid, post, rfl, fun h => (hmid _ h).2 rfl, fun h => (hother _ h).2.2 rfl,
      fun h => (hother _ h).1 rfl⟩
    rcases mem_append.mp h with h | h
    · exact (hmid _ h).1 rfl
    · exact (hother _ ((mem_cons.mp h).resolve_left nofun)).2.1 rfl
  · rintro ⟨hlock, mid, post, rfl, hmid, hpost, htab⟩
    rw [mem_append, mem_cons, not_or, not_or] at hlock
    refine ⟨[], mid, post, rfl, fun i hi => ⟨?_, ?_, ?_⟩, fun i hi => ⟨?_, ?_⟩⟩
    · exact ne_of_mem_of_not_mem hi htab
    · exact ne_of_mem_of_not_mem hi hlock.2.2
    · exact ne_of_mem_of_not_mem hi hpost
    · exact ne_of_mem_of_not_mem hi hlock.1
    · exact ne_of_mem_of_not_mem hi hmid

namespace Lowering

variable {L : Lowering} {f : LLVMFunc} {m : String} {p : List Nat}

/-- What is executed after the lock, on a path with the last block. -/
theorem exists_of_expand_tail {pre post : List Nat} {t : List Instr}
    (h : L.Expand ((pre ++ (f.blocks.length - 1) :: post).flatMap (f.tail m)) t) :
    ∃ a c, t = a ++ .unlock m :: c ∧
      L.Expand (pre.flatMap (f.tail m) ++ bodyOf f.blocks (f.blocks.length - 1)) a ∧
      L.Expand (post.flatMap (f.tail m)) c := by
  rw [flatMap_tail_append] at h
  obtain ⟨a, b, rfl, ha, hb⟩ := exists_of_expand_append h
  cases hb with
  | keep _ hc => exact ⟨a, _, rfl, ha, hc⟩
  | inline hi => cases hi

theorem unlock_not_mem_before {pre : List Nat} (hpre : f.blocks.length - 1 ∉ pre) :
    .unlock m ∉ pre.flatMap (f.tail m) ++ bodyOf f.blocks (f.blocks.length - 1) := by
  rw [mem_append, not_or]
  refine ⟨unlock_not_mem_tail hpre, fun h => ?_⟩
  cases isSync_of_mem h

/-- Blocks other than the last one execute what their instructions do. -/
theorem not_mem_of_expand_tail {bs : List Nat} (hbs : f.blocks.length - 1 ∉ bs) {j : Instr}
    (hquiet : ∀ b ∈ bs, ∀ i ∈ bodyOf f.blocks b, ∀ t, L.Expand [i] t → j ∉ t) {t : List Instr}
    (h : L.Expand (bs.flatMap (f.tail m)) t) : j ∉ t := by
  intro hj
  obtain ⟨i, hi, u, hu, hmem⟩ := exists_of_mem_expand h hj
  obtain ⟨b, hb, hi⟩ := (mem_flatMap_tail hbs).mp hi
  exact hquiet b hb i hi u hu hmem

/-- The executions of a path in raw mode are synchronised exactly if it unlocks once. -/
theorem synced_iff_unlocksOnce (hret : ∀ f ∈ L.funcs, ∃ t, L.Executes f t) :
    (∀ t, L.Expand (.lock m :: p.flatMap (f.tail m)) t → Synced m t) ↔ L.UnlocksOnce f m p := by
  constructor
  · intro h
    have hsynced : ∀ t, L.Expand (p.flatMap (f.tail m)) t → Synced m (.lock m :: t) :=
      fun t ht => h _ (.keep rfl ht)
    have hquiet : ∀ b ∈ p, ∀ i ∈ bodyOf f.blocks b, ∀ t, L.Expand [i] t → .lock m ∉ t := by
      intro b hb i hi u hu hlock
      have hmem : i ∈ p.flatMap (f.tail m) := mem_flatMap.mpr ⟨b, hb, mem_append_left _ hi⟩
      obtain ⟨t, ht, hsub⟩ := exists_expand_of_mem hret hmem hu
      exact (synced_lock_iff.mp (hsynced t ht)).1 (hsub hlock)
    have hlast : f.blocks.length - 1 ∈ p := by
      by_contra hnot
      obtain ⟨t, ht⟩ := exists_expand hret (p.flatMap (f.tail m))
      obtain ⟨hlock, mid, post, rfl, -⟩ := synced_lock_iff.mp (hsynced t ht)
      exact (lock_of_unlock ht (m := m) (by simp)).elim (unlock_not_mem_tail hnot) hlock
    obtain ⟨pre, post, rfl, hpre⟩ := eq_append_cons_of_mem hlast
    -- behind the unlock of the last block there is no other one and no access
    have hpost : ∀ c, L.Expand (post.flatMap (f.tail m)) c → .unlock m ∉ c ∧ .table ∉ c := by
      intro c hc
      obtain ⟨a, ha⟩ := exists_expand hret
        (pre.flatMap (f.tail m) ++ bodyOf f.blocks (f.blocks.length - 1))
      have ht := ha.append (.keep (i := .unlock m) rfl hc)
      rw [← flatMap_tail_append] at ht
      obtain ⟨hlock, mid, post', heq, hmid, hpost', htab⟩ := synced_lock_iff.mp (hsynced _ ht)
      obtain ⟨-, -, rfl⟩ := (append_cons_inj_of_notMem hmid hpost').mp heq.symm
      exact ⟨hpost', htab⟩
    refine ⟨pre, post, rfl, ?_, hquiet, fun b hb i hi u hu htab => ?_⟩
    · rw [mem_append, not_or]
      refine ⟨hpre, fun hmem => ?_⟩
      obtain ⟨c, hc⟩ := exists_expand hret (post.flatMap (f.tail m))
      exact (hpost c hc).1 (mem_expand hc
        (mem_flatMap.mpr ⟨_, hmem, by simp [LLVMFunc.tail]⟩) rfl)
    · have hmem : i ∈ post.flatMap (f.tail m) := mem_flatMap.mpr ⟨b, hb, mem_append_left _ hi⟩
      obtain ⟨c, hc, hsub⟩ := exists_expand_of_mem hret hmem hu
      exact (hpost c hc).2 (hsub htab)
  · rintro ⟨pre, post, rfl, hlast, hquiet, htab⟩ t ht
    rw [mem_append, not_or] at hlast
    cases ht with
    | inline hi => cases hi
    | @keep _ _ t _ ht =>
      obtain ⟨a, c, rfl, ha, hc⟩ := exists_of_expand_tail ht
      have hlocka : .lock m ∉ a := by
        intro hlock
        obtain ⟨i, hi, u, hu, hmem⟩ := exists_of_mem_expand ha hlock
        rcases mem_append.mp hi with hi | hi
        · obtain ⟨b, hb, hi⟩ := (mem_flatMap_tail hlast.1).mp hi
          exact hquiet b (mem_append_left _ hb) i hi u hu hmem
        · exact hquiet _ (mem_append_right _ mem_cons_self) i hi u hu hmem
      have hlockc : .lock m ∉ c := not_mem_of_expand_tail hlast.2
        (fun b hb => hquiet b (mem_append_right _ (mem_cons_of_mem _ hb))) hc
      refine synced_lock_iff.mpr ⟨by simp [hlocka, hlockc], a, c, rfl, fun h => ?_, fun h => ?_,
        not_mem_of_expand_tail hlast.2 htab hc⟩
      · exact (lock_of_unlock ha h).elim (unlock_not_mem_before hlast.1) hlocka
      · exact (lock_of_unlock hc h).elim (unlock_not_mem_tail hlast.2) hlockc

/-- All executions of a function with a mutex are synchronised if and only if it is lowered in
raw mode, and all paths to a return visit the last block once, access no table after it and
inline nothing that locks the mutex. -/
theorem lowered_synced_iff (L : Lowering) (f : LLVMFunc) (m : String)
    (hm : f.syncMutex = some m) (hret : ∀ f ∈ L.funcs, ∃ t, L.Executes f t) :
    (∀ t, L.Executes f t → Synced m t) ↔
      ∀ p, Path (successorsOf f.blocks) 0 p → L.mode = .raw ∧ L.UnlocksOnce f m p := by
  simp only [Executes, successorsOf_lowered, forall_exists_index, and_imp]
  rw [forall_comm]
  refine forall_congr' fun p => ?_
  rw [forall_comm]
  refine forall_congr' fun hp => ?_
  by_cases hmode : L.mode = .raw
  · have hlowered : L.lowered f = f.insertMutex m := by simp [lowered, mutexOf, hmode, hm]
    rw [hlowered, flatMap_insertMutex hp, and_iff_right hmode]
    exact synced_iff_unlocksOnce hret
  · have hnone : ∀ g, L.mutexOf g = none := by
      intro g
      cases hL : L.mode <;> simp_all [mutexOf]
    rw [lowered, hnone]
    refine iff_of_false (fun h => ?_) fun h => hmode h.1
    obtain ⟨t, ht⟩ := exists_expand hret (p.flatMap (bodyOf f.blocks))
    obtain ⟨pre, mid, post, rfl, -⟩ := h t ht
    obtain ⟨c, -, hc⟩ := mem_flatMap.mp
      (lock_of_lock (m := m) (fun g _ => by simp [hnone]) ht (by simp))
    cases isSync_of_mem hc

end Lowering

/-! ## Two handlers -/

/-- A table access and the call of the next handler, which returns from another block. -/
def sender : LLVMFunc where
  blocks := [⟨[.table, .call 0], [1]⟩, ⟨[.other], []⟩]
  syncMutex := some "flows"
  calls := by decide
  entry := by decide

/-- The next handler. -/
def receiver (mutex : Option String) : LLVMFunc where
  blocks := [⟨[.table], []⟩]
  syncMutex := mutex
  calls := by decide
  entry := by decide

def twoHandlers (mode : Mode) (mutex : Option String) : Lowering :=
  ⟨mode, true, [receiver mutex]⟩

/-- The next handler is inlined and has no mutex. -/
theorem sender_synced : (∃ t, (twoHandlers .raw none).Executes sender t) ∧
      ∀ t, (twoHandlers .raw none).Executes sender t → Synced "flows" t := by
  have hret : ∀ f ∈ (twoHandlers .raw none).funcs, ∃ t, (twoHandlers .raw none).Executes f t :=
    forall_mem_singleton.mpr ⟨[.table], [0], .ret rfl, .keep rfl .nil⟩
  obtain ⟨t, ht⟩ := Lowering.exists_expand hret _
  refine ⟨⟨t, [0, 1], .go rfl mem_cons_self (.ret rfl), ht⟩,
    (Lowering.lowered_synced_iff _ sender "flows" rfl hret).mpr fun p hp => ?_⟩
  have hpath : p = [0, 1] := by
    cases hp with
    | ret h => cases h
    | go h hc hrest =>
      cases h
      cases mem_singleton.mp hc
      cases hrest with
      | ret => rfl
      | go h hc => cases h; cases hc
  subst hpath
  refine ⟨rfl, [0], [], rfl, by decide, fun b _ i hi t ht hlock => ?_, nofun⟩
  have hfree : ∀ g ∈ (twoHandlers .raw none).funcs,
      (twoHandlers .raw none).mutexOf g ≠ some "flows" := by
    simp [twoHandlers, receiver, Lowering.mutexOf]
  obtain rfl := mem_singleton.mp (Lowering.lock_of_lock hfree ht hlock)
  cases isSync_of_mem hi

/-- An update in one of two blocks that return. -/
def twoReturns : LLVMFunc where
  blocks := [⟨[.other], [1, 2]⟩, ⟨[.table], []⟩, ⟨[.other], []⟩]
  syncMutex := some "flows"
  calls := by decide
  entry := by decide

theorem not_synced_of_count {m : String} {t : List Instr}
    (h : t.count (.lock m) ≠ 1 ∨ .unlock m ∉ t) : ¬ Synced m t := by
  rintro ⟨pre, mid, post, rfl, hother, hmid⟩
  rcases h with h | h
  · refine h ?_
    have hpre : .lock m ∉ pre := fun hi => (hother _ (mem_append_left _ hi)).2.1 rfl
    have hpost : .lock m ∉ post := fun hi => (hother _ (mem_append_right _ hi)).2.1 rfl
    have hmid : .lock m ∉ mid := fun hi => (hmid _ hi).1 rfl
    simp [count_append, count_eq_zero_of_not_mem, hpre, hmid, hpost]
  · exact h (by simp)

/-- The first of two blocks returns with the lock. A handler that is inlined locks the mutex
again, and outside of the raw mode nothing is locked. -/
theorem twoReturns_not_synced :
    (Lowering.mk .raw false []).Executes twoReturns [.lock "flows", .other, .table] ∧
      ¬ Synced "flows" [.lock "flows", .other, .table] ∧
      (twoHandlers .raw (some "flows")).Executes sender [.lock "flows", .table, .lock "flows",
        .table, .unlock "flows", .other, .unlock "flows"] ∧
      ¬ Synced "flows" [.lock "flows", .table, .lock "flows", .table, .unlock "flows", .other,
        .unlock "flows"] ∧
      (twoHandlers .call none).Executes sender [.table, .table, .other] ∧
      ¬ Synced "flows" [.table, .table, .other] := by
  refine ⟨⟨[0, 1], .go rfl mem_cons_self (.ret rfl), .keep rfl (.keep rfl (.keep rfl .nil))⟩,
    not_synced_of_count (by decide), ⟨[0, 1], .go rfl mem_cons_self (.ret rfl), ?_⟩,
    not_synced_of_count (by decide), ⟨[0, 1], .go rfl mem_cons_self (.ret rfl), ?_⟩,
    not_synced_of_count (by decide)⟩
  · exact .keep rfl (.keep rfl (.inline (u := [.lock "flows", .table, .unlock "flows"])
      (f := receiver (some "flows")) (p := [0]) rfl (.ret rfl)
      (.keep rfl (.keep rfl (.keep rfl .nil))) (.keep rfl (.keep rfl .nil))))
  · exact .keep rfl (.inline (u := [.table]) (f := receiver none) (p := [0]) rfl (.ret rfl)
      (.keep rfl .nil) (.keep rfl .nil))

end Alkali.SyncMutex
