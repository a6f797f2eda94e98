import Mathlib.Data.List.Basic

/-!
# Tables with nested scopes

A scope is the list of its insertions, the latest first. An insertion goes to
the innermost scope and hides older entries of its key; leaving a scope brings
them back.
-/

/-- The open scopes, the innermost one first. -/
structure ScopedTable (κ ν : Type*) where
  scopes : List (List (κ × ν))

namespace ScopedTable

variable {κ ν : Type*} (t : ScopedTable κ ν)

def enter : ScopedTable κ ν := ⟨[] :: t.scopes⟩

def leave : ScopedTable κ ν := ⟨t.scopes.tail⟩

variable (k : κ)

def insert (v : ν) : ScopedTable κ ν :=
  match t.scopes with
  | [] => ⟨[[(k, v)]]⟩
  | s :: rest => ⟨((k, v) :: s) :: rest⟩

@[simp] theorem leave_insert (v : ν) : (t.insert k v).leave = t.leave := by
  obtain ⟨_ | ⟨s, rest⟩⟩ := t <;> rfl

variable [DecidableEq κ]

def lookup (t : ScopedTable κ ν) (k : κ) : Option ν := t.scopes.flatten.lookup k

@[simp] theorem lookup_enter : t.enter.lookup k = t.lookup k := rfl

theorem lookup_insert (k k' : κ) (v : ν) :
    (t.insert k v).lookup k' = if k' = k then some v else t.lookup k' := by
  have hcons : ∀ l : List (κ × ν),
      ((k, v) :: l).lookup k' = if k' = k then some v else l.lookup k' := by
    by_cases h : k' = k
    · simp [h]
    · simp [List.lookup_cons, h, beq_false_of_ne h]
  obtain ⟨_ | ⟨s, rest⟩⟩ := t
  · exact hcons []
  · exact hcons (s ++ rest.flatten)

@[simp] theorem lookup_insert_self (v : ν) : (t.insert k v).lookup k = some v := by
  rw [lookup_insert, if_pos rfl]

theorem lookup_insert_of_ne {k k' : κ} (h : k' ≠ k) (v : ν) :
    (t.insert k v).lookup k' = t.lookup k' := by
  rw [lookup_insert, if_neg h]

end ScopedTable
