import Mathlib.Data.List.Sort

/-!
# Chains of a partial successor function

A partial function gives every element a chain of successors. Following a chain
may not terminate. Giving the last element of a chain a successor joins two
chains, or closes a cycle.
-/

namespace Chain

open Option

variable {V : Type*} (next : V → Option V)

/-- Follow the chain of an element to its end, with fuel. -/
def follow : Nat → V → Option V
  | 0, _ => none
  | n + 1, v =>
    match next v with
    | none => some v
    | some w => follow n w

/-- The chain of the first element ends in the second. -/
inductive Ends : V → V → Prop
  | stop {v} (h : next v = none) : Ends v v
  | step {v w r} (h : next v = some w) (rest : Ends w r) : Ends v r

/-- The element lies on a cycle. -/
def Cyclic (v : V) : Prop := Relation.TransGen (fun a b => next a = some b) v v

variable {next}
variable {v r : V} {xs ys : List V}

theorem ends_of_follow {n : Nat} (h : follow next n v = some r) : Ends next v r := by
  induction n generalizing v with
  | zero => cases h
  | succ n ih =>
    cases hv : next v with
    | none =>
      simp only [follow, hv, some.injEq] at h
      subst h
      exact .stop hv
    | some w =>
      simp only [follow, hv] at h
      exact .step hv (ih h)

theorem follow_mono {n m : Nat} (h : follow next n v = some r) (hle : n ≤ m) :
    follow next m v = some r := by
  induction n generalizing v m with
  | zero => cases h
  | succ n ih =>
    obtain ⟨m, rfl⟩ : ∃ k, m = k + 1 := ⟨m - 1, by omega⟩
    cases hv : next v with
    | none => simpa [follow, hv] using h
    | some w =>
      simp only [follow, hv] at h ⊢
      exact ih h (by omega)

section

variable (h : Ends next v r)
include h

theorem Ends.exists_follow : ∃ n, follow next n v = some r := by
  induction h with
  | stop h => exact ⟨1, by simp [follow, h]⟩
  | step h _ ih =>
    obtain ⟨n, hn⟩ := ih
    exact ⟨n + 1, by simpa [follow, h] using hn⟩

theorem Ends.stops : next r = none := by
  induction h with
  | stop h => exact h
  | step _ _ ih => exact ih

theorem Ends.unique {r' : V} (h' : Ends next v r') : r = r' := by
  induction h with
  | stop h =>
    cases h' with
    | stop _ => rfl
    | step h'' _ => rw [h] at h''; cases h''
  | step h _ ih =>
    cases h' with
    | stop h'' => rw [h] at h''; cases h''
    | step h'' rest =>
      rw [h] at h''
      cases h''
      exact ih rest

/-- An element whose chain ends is not on a cycle. -/
theorem Ends.not_cyclic : ¬ Cyclic next v := by
  induction h with
  | stop h =>
    intro hc
    obtain ⟨w, hw, _⟩ := Relation.TransGen.head'_iff.mp hc
    rw [h] at hw
    cases hw
  | @step v w r h _ ih =>
    -- the cycle passes through the successor as well
    intro hc
    obtain ⟨w', hw', hback⟩ := Relation.TransGen.head'_iff.mp hc
    rw [h] at hw'
    cases hw'
    exact ih (Relation.TransGen.tail' hback h)

end

theorem mapM_follow_mono {n m : Nat} (h : xs.mapM (follow next n) = some ys) (hle : n ≤ m) :
    xs.mapM (follow next m) = some ys := by
  induction xs generalizing ys with
  | nil => exact h
  | cons x xs ih =>
    simp only [List.mapM_cons, pure_def, bind_eq_bind, bind_eq_some_iff, some.injEq] at h ⊢
    obtain ⟨y, hy, ys, hys, rfl⟩ := h
    exact ⟨y, follow_mono hy hle, ys, ih hys, rfl⟩

/-- Following the chains of a list of elements. -/
theorem exists_mapM_follow_iff :
    (∃ n, xs.mapM (follow next n) = some ys) ↔ List.Forall₂ (Ends next) xs ys := by
  constructor
  · rintro ⟨n, h⟩
    induction xs generalizing ys with
    | nil =>
      cases h
      exact .nil
    | cons x xs ih =>
      simp only [List.mapM_cons, pure_def, bind_eq_bind, bind_eq_some_iff, some.injEq] at h
      obtain ⟨y, hy, ys, hys, rfl⟩ := h
      exact .cons (ends_of_follow hy) (ih hys)
  · intro h
    induction h with
    | nil => exact ⟨0, rfl⟩
    | cons hx _ ih =>
      obtain ⟨n, hn⟩ := hx.exists_follow
      obtain ⟨m, hm⟩ := ih
      refine ⟨max n m, ?_⟩
      rw [List.mapM_cons, follow_mono hn (Nat.le_max_left n m),
        mapM_follow_mono hm (Nat.le_max_right n m)]
      rfl

/-- A chain that runs into a cycle has no end. -/
theorem Ends.not_reaches_cyclic {w : V} (h : Ends next v r)
    (hw : Relation.ReflTransGen (fun x y => next x = some y) v w) : ¬ Cyclic next w := by
  induction hw using Relation.ReflTransGen.head_induction_on with
  | refl => exact h.not_cyclic
  | head hv _ ih =>
    cases h with
    | stop h => rw [h] at hv; cases hv
    | step h rest =>
      rw [h] at hv
      cases hv
      exact ih rest

/-- The function gives the end of every chain. -/
def EndsAt (next : V → Option V) (f : V → V) : Prop := ∀ v, Ends next v (f v)

variable {f : V → V}

theorem EndsAt.forall₂_iff (h : EndsAt next f) :
    List.Forall₂ (Ends next) xs ys ↔ ys = xs.map f := by
  constructor
  · intro hends
    induction hends with
    | nil => rfl
    | cons hx _ ih => rw [List.map_cons, hx.unique (h _), ih]
  · rintro rfl
    exact List.forall₂_map_right_iff.mpr (List.forall₂_same.mpr fun x _ => h x)

theorem EndsAt.idem (h : EndsAt next f) (v : V) : f (f v) = f v :=
  (h (f v)).unique (.stop (h v).stops)

variable [DecidableEq V]

/-- Give `a` the successor `b`. -/
def link (next : V → Option V) (a b : V) : V → Option V := Function.update next a (some b)

variable {a b : V}

theorem link_self : link next a b a = some b := Function.update_self ..

theorem link_of_ne (h : v ≠ a) : link next a b v = next v :=
  Function.update_of_ne h ..

/-- An element that has a successor keeps it. -/
theorem link_of_some (ha : next a = none) {w : V} (h : next v = some w) :
    link next a b v = some w := by
  rw [link_of_ne, h]
  rintro rfl
  rw [ha] at h
  cases h

/-- Chains that do not end in `a` stay as they are. -/
theorem Ends.link_of_ne (ha : next a = none) (h : Ends next v r) (hr : r ≠ a) :
    Ends (link next a b) v r := by
  induction h with
  | stop h => exact .stop ((Chain.link_of_ne hr).trans h)
  | step h _ ih => exact .step (link_of_some ha h) (ih hr)

/-- Chains that end in `a` go on along the chain of `b`. -/
theorem Ends.link {c : V} (h : Ends next v r) (hr : r = a) (hb : Ends next b c) (hc : c ≠ a) :
    Ends (link next a b) v c := by
  have ha : next a = none := hr ▸ h.stops
  induction h with
  | stop h =>
    subst hr
    exact .step link_self (hb.link_of_ne ha hc)
  | step h _ ih => exact .step (link_of_some ha h) (ih hr)

theorem Ends.link_reaches (h : Ends next v r) (hr : r = a) :
    Relation.ReflTransGen (fun x y => Chain.link next a b x = some y) v a := by
  have ha : next a = none := hr ▸ h.stops
  induction h with
  | stop h =>
    subst hr
    exact .refl
  | step h _ ih => exact .head (link_of_some ha h) (ih hr)

/-- Linking the end of a chain to a member of the chain closes a cycle. -/
theorem Ends.link_cyclic (hb : Ends next b a) : Cyclic (Chain.link next a b) a :=
  Relation.TransGen.head' link_self (hb.link_reaches rfl)

/-- The ends of the chains after the end of the chain of `a` is given the successor `b`. -/
def merge (f : V → V) (a b v : V) : V := if f v = f a then f b else f v

theorem merge_eq_merge_iff {w : V} : merge f a b v = merge f a b w ↔
    f v = f w ∨ (f v = f b ∧ f a = f w) ∨ (f v = f a ∧ f b = f w) := by
  unfold merge
  all_goals grind

theorem merge_of_eq (h : f a = f b) : merge f a b = f := by
  funext v
  unfold merge
  split_ifs with hv
  · exact (hv.trans h).symm
  · rfl

theorem EndsAt.link (h : EndsAt next f) (hne : f b ≠ f a) :
    EndsAt (Chain.link next (f a) b) (merge f a b) := by
  intro v
  unfold merge
  split_ifs with hv
  · exact (h v).link hv (h b) hne
  · exact (h v).link_of_ne (h a).stops hv

end Chain
