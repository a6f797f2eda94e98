import Mathlib.Data.List.Basic

/-!
# Computations that can fail

A sequence of computations succeeds exactly if each of them does, and a map over a list
exactly if it succeeds at every entry.
-/

namespace Fallible

open List Option

variable {ε α β : Type}
variable {f : α → Except ε β}
variable {x : Except ε α} {a : α} {l : List α} {bs : List β}

theorem bind_eq_ok {b : β} : x >>= f = .ok b ↔ ∃ a, x = .ok a ∧ f a = .ok b := by
  cases x <;> simp [bind, Except.bind]

theorem toOption_eq_some : x.toOption = some a ↔ x = .ok a := by
  cases x <;> simp [Except.toOption]

theorem mapM_mono {g : α → Except ε β} (h : ∀ a b, f a = .ok b → g a = .ok b)
    (hl : l.mapM f = .ok bs) : l.mapM g = .ok bs := by
  induction l generalizing bs with
  | nil => exact hl
  | cons a l ih =>
    rw [mapM_cons] at hl ⊢
    obtain ⟨b, hb, hl⟩ := bind_eq_ok.mp hl
    obtain ⟨cs, hcs, hl⟩ := bind_eq_ok.mp hl
    exact bind_eq_ok.mpr ⟨b, h a b hb, bind_eq_ok.mpr ⟨cs, ih hcs, hl⟩⟩

theorem mapM_getElem? (hl : l.mapM f = .ok bs) {i : Nat} (ha : l[i]? = some a) :
    ∃ b, f a = .ok b ∧ bs[i]? = some b := by
  induction l generalizing bs i with
  | nil => cases ha
  | cons a' l ih =>
    rw [mapM_cons] at hl
    obtain ⟨b, hb, hl⟩ := bind_eq_ok.mp hl
    obtain ⟨cs, hcs, hl⟩ := bind_eq_ok.mp hl
    cases hl
    cases i with
    | zero =>
      cases ha
      exact ⟨b, hb, rfl⟩
    | succ i => exact ih hcs ha

/-! ## Optional results -/

section Optional

variable {f : α → Option β} {l : List α} {bs : List β}

theorem mapM_eq_some_iff : l.mapM f = some bs ↔ bs.map some = l.map f := by
  induction l generalizing bs with
  | nil => cases bs <;> simp
  | cons a l ih =>
    simp only [mapM_cons, Option.bind_eq_bind, Option.bind_eq_some_iff, Option.pure_def,
      Option.some.injEq, ih]
    constructor
    · rintro ⟨b, hb, cs, hcs, rfl⟩
      rw [map_cons, map_cons, hb, hcs]
    · intro h
      cases bs with
      | nil => cases h
      | cons b cs =>
        obtain ⟨hb, hcs⟩ := List.cons.inj h
        exact ⟨b, hb.symm, cs, hcs, rfl⟩

theorem map_some_filterMap (h : ∀ a ∈ l, f a ≠ none) : (l.filterMap f).map some = l.map f := by
  induction l with
  | nil => rfl
  | cons a l ih =>
    obtain ⟨b, hb⟩ := ne_none_iff_exists'.mp (h a (by simp))
    rw [filterMap_cons_some hb, map_cons, map_cons, hb, ih fun a ha => h a (by simp [ha])]

theorem exists_mapM_iff : (∃ bs, l.mapM f = some bs) ↔ ∀ a ∈ l, ∃ b, f a = some b := by
  simp only [mapM_eq_some_iff]
  constructor
  · rintro ⟨bs, hbs⟩ a ha
    have hmem : f a ∈ bs.map some := hbs ▸ mem_map_of_mem ha
    obtain ⟨b, -, hb⟩ := mem_map.mp hmem
    exact ⟨b, hb.symm⟩
  · intro h
    exact ⟨_, map_some_filterMap fun a ha => ne_none_iff_exists'.mpr (h a ha)⟩

/-- The results are those at the entries. -/
theorem mem_mapM_iff (h : l.mapM f = some bs) {b : β} : b ∈ bs ↔ ∃ a ∈ l, f a = some b := by
  have hmem : some b ∈ bs.map some ↔ some b ∈ l.map f := by rw [mapM_eq_some_iff.mp h]
  simpa [eq_comm] using hmem

section Related

variable {γ δ : Type} {r : α → β → Prop} {x : Option α} {y : Option β} (h : Rel r x y)
include h

/-- Related results stay related. -/
theorem rel_bind {q : γ → δ → Prop} {f : α → Option γ} {g : β → Option δ}
    (hfg : ∀ a b, x = some a → y = some b → r a b → Rel q (f a) (g b)) :
    Rel q (x.bind f) (y.bind g) := by
  cases h with
  | some hab => exact hfg _ _ rfl rfl hab
  | none => exact .none

theorem exists_of_rel {a : α} (hx : x = some a) : ∃ b, y = some b ∧ r a b := by
  cases h with
  | some hab =>
    cases hx
    exact ⟨_, rfl, hab⟩
  | none => cases hx

theorem map_eq_of_rel {f : α → γ} {g : β → γ} (hfg : ∀ a b, r a b → f a = g b) :
    x.map f = y.map g := by
  cases h with
  | some hab => exact congrArg some (hfg _ _ hab)
  | none => rfl

end Related

variable {σ : Type} {step : σ → α → Option σ} {s : σ}
variable {P : List α → σ → Prop} {t : σ}

/-- What holds of the entries so far and the state, if the loop ends. -/
theorem foldlM_rule {l : List α} (hs : P [] s)
    (h : ∀ done a s t, P done s → step s a = some t → P (done ++ [a]) t)
    (hl : l.foldlM step s = some t) : P l t := by
  suffices hfrom : ∀ rest done s, P done s → rest.foldlM step s = some t → P (done ++ rest) t from
    hfrom l [] s hs hl
  intro rest
  induction rest with
  | nil =>
    intro done s hdone hrun
    rw [append_nil]
    exact some.inj hrun ▸ hdone
  | cons a rest ih =>
    intro done s hdone hrun
    obtain ⟨u, hstep, hrun⟩ := bind_eq_some_iff.mp hrun
    rw [append_cons]
    exact ih (done ++ [a]) u (h done a s u hdone hstep) hrun

/-- What holds of the entries that are left and the state. -/
theorem foldlM_rest {l : List α} (hs : P l s)
    (h : ∀ a rest s t, P (a :: rest) s → step s a = some t → P rest t)
    (hl : l.foldlM step s = some t) : P [] t := by
  induction l generalizing s with
  | nil => exact some.inj hl ▸ hs
  | cons a l ih =>
    obtain ⟨u, hstep, hl⟩ := bind_eq_some_iff.mp hl
    exact ih (h a l s u hs hstep) hl

/-- A loop ends if and only if each step does, where that depends on the entry only. -/
theorem exists_foldlM_iff {ok : α → Prop} (h : ∀ s a, (∃ t, step s a = some t) ↔ ok a)
    {l : List α} : (∃ t, l.foldlM step s = some t) ↔ ∀ a ∈ l, ok a := by
  induction l generalizing s with
  | nil => simp
  | cons a l ih =>
    rw [foldlM_cons, forall_mem_cons, ← h s a]
    constructor
    · rintro ⟨t, ht⟩
      obtain ⟨u, hstep, hrest⟩ := bind_eq_some_iff.mp ht
      exact ⟨⟨u, hstep⟩, ih.mp ⟨t, hrest⟩⟩
    · rintro ⟨⟨u, hstep⟩, hrest⟩
      obtain ⟨t, ht⟩ := ih.mpr hrest
      exact ⟨t, bind_eq_some_iff.mpr ⟨u, hstep, ht⟩⟩

end Optional

end Fallible
