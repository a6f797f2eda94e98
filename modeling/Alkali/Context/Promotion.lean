import Alkali.Dialect.Types

/-!
# Promotion of a context field

`mem2reg` replaces the loads of a field by the values that reach them. `canUsesBeRemoved` of
loads and stores was to compare their types with that of the slot, but the comparison stands
behind the end of the `return` statement, so that every load and store is removed. Where
branches with different values meet, `mem2reg` gives the block an argument of the type of the
slot, and every branch to the block has to pass a value of that type.
-/

namespace Alkali.Promotion

open List

/-- What a handler does with a field. Values are given by what they are at run time. -/
inductive Code (D : Type)
  | done
  | load (ty : Ty) (rest : Code D)
  | store (ty : Ty) (value : D) (rest : Code D)
  | ite (thenCode elseCode rest : Code D)

/-- The definition that reaches a place, with its type, and what was stored last. -/
structure State (D : Type) where
  ty : Ty
  reaching : D
  last : D

/-- A load, or the operand of a branch to a block with an argument for the field: the type that
it has to have and what was stored last, and the type and the value of what is put there. -/
structure Replaced (D : Type) where
  useTy : Ty
  last : D
  ty : Ty
  value : D

variable {D : Type}

/-- The value that is put there has the type and is the one stored last. -/
def Replaced.Fits (u : Replaced D) : Prop := u.ty = u.useTy ∧ u.value = u.last

namespace Code

def stores : Code D → Bool
  | done => false
  | load _ rest => rest.stores
  | store _ _ _ => true
  | ite a b rest => a.stores || b.stores || rest.stores

/-- Whether the field is read before it is stored, if it is or is not read that way behind the
code. -/
def live : Code D → Bool → Bool
  | done, behind => behind
  | load _ _, _ => true
  | store _ _ _, _ => false
  | ite a b rest, behind => a.live (rest.live behind) || b.live (rest.live behind)

/-- The block behind a conditional has an argument if one of the branches stores and the block
reads the field. -/
def merges (a b rest : Code D) (behind : Bool) : Bool :=
  rest.live behind && (a.stores || b.stores)

/-- What a branch passes to the block behind a conditional. -/
def passed (elemType : Ty) (arg : Bool) (s : State D) : List (Replaced D) :=
  if arg then [⟨elemType, s.last, s.ty, s.reaching⟩] else []

/-- The state at the start of that block. -/
def join (elemType : Ty) (arg : Bool) (s : State D) : State D :=
  if arg then { s with ty := elemType } else s

/-- What is replaced and passed on all paths, and the state at the end. -/
def paths (elemType : Ty) : Code D → Bool → State D → List (List (Replaced D) × State D)
  | done, _, s => [([], s)]
  | load ty rest, behind, s =>
    (rest.paths elemType behind s).map fun r => (⟨ty, s.last, s.ty, s.reaching⟩ :: r.1, r.2)
  | store ty value rest, behind, _ => rest.paths elemType behind ⟨ty, value, value⟩
  | ite a b rest, behind, s =>
    let arg := merges a b rest behind
    (a.paths elemType (rest.live behind) s ++ b.paths elemType (rest.live behind) s).flatMap
      fun r => (rest.paths elemType behind (join elemType arg r.2)).map fun q =>
        (r.1 ++ passed elemType arg r.2 ++ q.1, q.2)

/-- Each load is replaced by a value of its type that is the one stored last, and each argument
of a block gets values of its type. -/
def Promoted (elemType : Ty) (code : Code D) (s : State D) : Prop :=
  ∀ r ∈ code.paths elemType false s, ∀ u ∈ r.1, u.Fits

/-- Each load has the type of the store in front of it, behind a conditional that stores that of
the slot, and at the start that of the default value. Where the field is read behind a
conditional that stores, both branches end with the type of the slot. The types at the end have
a property that the code behind asks for. -/
def LoadsFit (elemType : Ty) : Code D → Bool → (Ty → Prop) → Ty → Prop
  | done, _, post, t => post t
  | load ty rest, behind, post, t => t = ty ∧ rest.LoadsFit elemType behind post t
  | store ty _ rest, behind, post, _ => rest.LoadsFit elemType behind post ty
  | ite a b rest, behind, post, t =>
    let meet := fun t => if merges a b rest behind
      then t = elemType ∧ rest.LoadsFit elemType behind post elemType
      else rest.LoadsFit elemType behind post t
    a.LoadsFit elemType (rest.live behind) meet t ∧ b.LoadsFit elemType (rest.live behind) meet t

variable {elemType : Ty} {code : Code D} {s : State D} {behind : Bool}

theorem exists_path (elemType : Ty) (code : Code D) (behind : Bool) (s : State D) :
    ∃ r, r ∈ code.paths elemType behind s := by
  induction code generalizing behind s with
  | done => exact ⟨_, mem_singleton_self _⟩
  | load ty rest ih =>
    obtain ⟨r, hr⟩ := ih behind s
    exact ⟨_, mem_map_of_mem hr⟩
  | store ty value rest ih => exact ih behind _
  | ite a b rest iha _ ihr =>
    obtain ⟨r, hr⟩ := iha (rest.live behind) s
    obtain ⟨q, hq⟩ := ihr behind (join elemType (merges a b rest behind) r.2)
    exact ⟨_, mem_flatMap.mpr ⟨r, mem_append_left _ hr, mem_map_of_mem hq⟩⟩

theorem join_reaching (elemType : Ty) (arg : Bool) (hs : s.reaching = s.last) :
    (join elemType arg s).reaching = (join elemType arg s).last := by
  cases arg with
  | false => exact hs
  | true => exact hs

/-- The value that reaches the end of a path is the one stored last. -/
theorem reaching_of_mem_paths (hs : s.reaching = s.last) {r : List (Replaced D) × State D}
    (hr : r ∈ code.paths elemType behind s) : r.2.reaching = r.2.last := by
  induction code generalizing behind s r with
  | done =>
    obtain rfl := mem_singleton.mp hr
    exact hs
  | load ty rest ih =>
    obtain ⟨q, hq, rfl⟩ := mem_map.mp hr
    exact ih (r := q) hs hq
  | store ty value rest ih => exact ih rfl hr
  | ite a b rest iha ihb ihr =>
    obtain ⟨q, hq, hr⟩ := mem_flatMap.mp hr
    obtain ⟨u, hu, rfl⟩ := mem_map.mp hr
    exact ihr (r := u) (join_reaching _ _ ((mem_append.mp hq).elim (iha hs) (ihb hs))) hu

/-- What is asked of a state at the end of a branch. -/
theorem passed_fits_iff {arg : Bool} (hs : s.reaching = s.last) (fits : Ty → Prop) :
    ((∀ u ∈ passed elemType arg s, u.Fits) ∧ fits (join elemType arg s).ty) ↔
      if arg then s.ty = elemType ∧ fits elemType else fits s.ty := by
  cases arg with
  | false => simp [passed, join]
  | true => simp [passed, join, Replaced.Fits, hs]

/-- On all paths everything fits and the end has a property if and only if the loads fit in front
of what asks for the property. -/
theorem paths_fit_iff (elemType : Ty) (code : Code D) (behind : Bool) (post : Ty → Prop)
    (s : State D) (hs : s.reaching = s.last) :
    (∀ r ∈ code.paths elemType behind s, (∀ u ∈ r.1, u.Fits) ∧ post r.2.ty) ↔
      code.LoadsFit elemType behind post s.ty := by
  induction code generalizing behind post s with
  | done => simp [paths, LoadsFit]
  | load ty rest ih =>
    rw [LoadsFit, ← ih behind post s hs]
    simp only [paths, forall_mem_map, forall_mem_cons]
    constructor
    · intro h
      obtain ⟨r, hr⟩ := exists_path elemType rest behind s
      exact ⟨(h r hr).1.1.1, fun q hq => ⟨(h q hq).1.2, (h q hq).2⟩⟩
    · rintro ⟨hty, hrest⟩ q hq
      exact ⟨⟨⟨hty, hs⟩, (hrest q hq).1⟩, (hrest q hq).2⟩
  | store ty value rest ih => exact ih behind post ⟨ty, value, value⟩ rfl
  | ite a b rest iha ihb ihr =>
    rw [LoadsFit, ← iha _ _ s hs, ← ihb _ _ s hs, ← forall_mem_append]
    simp only [paths, forall_mem_flatMap, forall_mem_map]
    refine forall₂_congr fun r hr => ?_
    have hlast := (mem_append.mp hr).elim (reaching_of_mem_paths hs) (reaching_of_mem_paths hs)
    have hjoin := join_reaching elemType (merges a b rest behind) hlast
    rw [← passed_fits_iff hlast (rest.LoadsFit elemType behind post), ← ihr _ _ _ hjoin]
    obtain ⟨q, hq⟩ := exists_path elemType rest behind (join elemType (merges a b rest behind) r.2)
    simp only [forall_mem_append]
    constructor
    · intro h
      exact ⟨(h q hq).1.1.1, (h q hq).1.1.2, fun q hq => ⟨(h q hq).1.2, (h q hq).2⟩⟩
    · rintro ⟨hbranch, hpassed, hrest⟩ q hq
      exact ⟨⟨⟨hbranch, hpassed⟩, (hrest q hq).1⟩, (hrest q hq).2⟩

/-- On all paths each load gets a value of its type that is the one stored last, and each block
argument values of its type, if and only if the loads fit. -/
theorem promoted_iff (elemType : Ty) (code : Code D) (s : State D) (hs : s.reaching = s.last) :
    code.Promoted elemType s ↔ code.LoadsFit elemType false (fun _ => True) s.ty := by
  rw [← paths_fit_iff elemType code false _ s hs]
  simp only [Promoted, and_true]

end Code

/-- A field of 32 bits that is used at 16 bits before, and stored at 16 bits where it is not read
any more. -/
theorem twoWidths_promoted :
    (Code.store (.int 16) 1 (.load (.int 16)
      (.ite (.store (.int 32) 2 .done) (.store (.int 32) 3 .done)
        (.load (.int 32) (.ite (.store (.int 16) 4 .done) .done .done))))).Promoted
      (.int 32) ⟨.int 32, 0, 0⟩ :=
  (Code.promoted_iff _ _ _ rfl).mpr
    ⟨rfl, ⟨rfl, rfl, trivial, trivial⟩, ⟨rfl, rfl, trivial, trivial⟩⟩

/-- A load of another width than that of the store gets a value of the width of the store, and an
argument of a block a value of another width than its own. -/
theorem store_load_not_promoted :
    ¬ (Code.store (.int 16) 1 (.load (.int 32) .done)).Promoted (.int 32) ⟨.int 32, 0, 0⟩ ∧
      ¬ (Code.ite (.store (.int 16) 1 .done) .done (.load (.int 32) .done)).Promoted
        (.int 32) ⟨.int 32, 0, 0⟩ := by
  refine ⟨fun h => ?_, fun h => ?_⟩
  · have hload := h _ (mem_singleton_self _) _ (mem_singleton_self _)
    cases hload.1
  · have hpassed := h _ mem_cons_self _ mem_cons_self
    cases hpassed.1

end Alkali.Promotion
