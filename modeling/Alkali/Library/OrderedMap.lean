import Mathlib.Data.List.Sort

/-!
# Maps with ordered keys

A map is the list of its entries in the order of their keys.
-/

/-- The entries of a map, with increasing keys. -/
structure OrderedMap (κ ν : Type*) [LinearOrder κ] where
  entries : List (κ × ν)
  sorted : (entries.map Prod.fst).Pairwise (· < ·)

namespace OrderedMap

open List

variable {κ ν : Type*} [LinearOrder κ]

def empty : OrderedMap κ ν := ⟨[], .nil⟩

def keys (m : OrderedMap κ ν) : List κ := m.entries.map Prod.fst

def find (m : OrderedMap κ ν) (k : κ) : Option ν := m.entries.lookup k

/-- The list of the entries with the entry of one key set. -/
def assignEntry (k : κ) (v : ν) : List (κ × ν) → List (κ × ν)
  | [] => [(k, v)]
  | (k', v') :: rest =>
    if k < k' then (k, v) :: (k', v') :: rest
    else if k = k' then (k, v) :: rest
    else (k', v') :: assignEntry k v rest

variable {k j : κ} {v : ν} {l : List (κ × ν)} {m : OrderedMap κ ν}

theorem mem_keys_assignEntry :
    j ∈ (assignEntry k v l).map Prod.fst ↔ j = k ∨ j ∈ l.map Prod.fst := by
  induction l with
  | nil => simp [assignEntry]
  | cons e l ih =>
    simp only [assignEntry]
    split_ifs with hlt heq
    · simp
    · simp [heq]
    · simp only [map_cons, mem_cons, ih]
      tauto

theorem pairwise_assignEntry (h : (l.map Prod.fst).Pairwise (· < ·)) :
    ((assignEntry k v l).map Prod.fst).Pairwise (· < ·) := by
  induction l with
  | nil => simp [assignEntry]
  | cons e l ih =>
    obtain ⟨hhead, htail⟩ := pairwise_cons.mp h
    simp only [assignEntry]
    split_ifs with hlt heq
    · refine pairwise_cons.mpr ⟨?_, h⟩
      intro j hj
      rcases mem_cons.mp hj with rfl | hj
      · exact hlt
      · exact hlt.trans (hhead j hj)
    · exact heq ▸ h
    · refine pairwise_cons.mpr ⟨?_, ih htail⟩
      intro j hj
      rcases mem_keys_assignEntry.mp hj with rfl | hj
      · exact lt_of_le_of_ne (not_lt.mp hlt) (Ne.symm heq)
      · exact hhead j hj

/-- Add an entry, or replace the entry of its key. -/
def insertOrAssign (m : OrderedMap κ ν) (k : κ) (v : ν) : OrderedMap κ ν :=
  ⟨assignEntry k v m.entries, pairwise_assignEntry m.sorted⟩

theorem mem_keys_insertOrAssign :
    j ∈ (m.insertOrAssign k v).keys ↔ j = k ∨ j ∈ m.keys := mem_keys_assignEntry

theorem find_insertOrAssign (m : OrderedMap κ ν) (k j : κ) (v : ν) :
    (m.insertOrAssign k v).find j = if j = k then some v else m.find j := by
  obtain ⟨l, _⟩ := m
  simp only [insertOrAssign, find]
  induction l with
  | nil => by_cases h : j = k <;> simp [assignEntry, h]
  | cons e l ih =>
    simp only [assignEntry]
    all_goals
      grind

theorem find_eq_none_iff : m.find k = none ↔ k ∉ m.keys := by
  rw [find, keys, lookup_eq_none_iff, mem_map, not_exists]
  refine forall_congr' fun e => ?_
  rw [not_and, bne_iff_ne]
  exact imp_congr_right fun _ => ne_comm

theorem find_eq_some_iff : m.find k = some v ↔ (k, v) ∈ m.entries := by
  obtain ⟨l, hsorted⟩ := m
  simp only [find]
  induction l with
  | nil => simp
  | cons e l ih =>
    obtain ⟨k', v'⟩ := e
    obtain ⟨hhead, htail⟩ := pairwise_cons.mp hsorted
    rw [lookup_cons, mem_cons, Prod.mk.injEq]
    by_cases hk : k = k'
    · subst hk
      have hnot : (k, v) ∉ l := fun hmem =>
        lt_irrefl k (hhead k (mem_map_of_mem (f := Prod.fst) hmem))
      simp [hnot, eq_comm]
    · simp [hk, beq_false_of_ne hk, ih htail]

theorem nodup_keys (m : OrderedMap κ ν) : m.keys.Nodup :=
  m.sorted.imp fun h => h.ne

/-- Add the entries of a list whose keys the map does not have. -/
def insertMissing (m : OrderedMap κ ν) : List (κ × ν) → OrderedMap κ ν
  | [] => m
  | (k, v) :: rest => insertMissing (if m.find k = none then m.insertOrAssign k v else m) rest

theorem find_insertMissing (m : OrderedMap κ ν) (l : List (κ × ν)) (j : κ) :
    (m.insertMissing l).find j = (m.find j).or (l.lookup j) := by
  induction l generalizing m with
  | nil => simp [insertMissing]
  | cons e l ih =>
    obtain ⟨k, v⟩ := e
    rw [insertMissing, ih, lookup_cons]
    by_cases hj : j = k
    · subst hj
      cases h : m.find j with
      | none => simp [find_insertOrAssign]
      | some w => simp [h]
    · have hbeq : (j == k) = false := beq_false_of_ne hj
      split_ifs <;> simp [find_insertOrAssign, hj, hbeq]

theorem mem_keys_insertMissing :
    j ∈ (m.insertMissing l).keys ↔ j ∈ m.keys ∨ j ∈ l.map Prod.fst := by
  induction l generalizing m with
  | nil => simp [insertMissing]
  | cons e l ih =>
    obtain ⟨k, v⟩ := e
    rw [insertMissing, ih]
    split_ifs with h
    · simp only [mem_keys_insertOrAssign, map_cons, mem_cons]
      tauto
    · have hk : k ∈ m.keys := by simpa [find_eq_none_iff] using h
      simp only [map_cons, mem_cons]
      constructor
      · tauto
      · rintro (hj | rfl | hj)
        · exact Or.inl hj
        · exact Or.inl hk
        · exact Or.inr hj

end OrderedMap
