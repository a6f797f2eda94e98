import Mathlib.Tactic

/-!
# Trees of splits

A part is split into a first and a second one, and these are split again. The parts
that are left are the leaves of a binary tree. A leaf has a route from the root,
and a number that starts with `1` and doubles with every turn.
-/

/-- How a part was split. -/
inductive SplitTree
  | leaf
  | node (first second : SplitTree)

namespace SplitTree

open List

/-- The turns from the root to a part: `false` to the first one, `true` to the second. -/
abbrev Route := List Bool

/-- The number of a part. -/
def number (r : Route) : Nat := r.foldl (fun n turn => 2 * n + turn.toNat) 1

@[simp] theorem number_nil : number [] = 1 := rfl

@[simp] theorem number_concat (r : Route) (turn : Bool) :
    number (r ++ [turn]) = 2 * number r + turn.toNat := by
  simp [number]

theorem number_bounds (r : Route) : 2 ^ r.length ≤ number r ∧ number r < 2 ^ (r.length + 1) := by
  induction r using List.reverseRecOn with
  | nil => decide
  | append_singleton r turn ih =>
    have hturn := turn.toNat_le
    rw [number_concat, length_append, length_singleton]
    constructor <;> omega

theorem number_injective {r q : Route} (h : number r = number q) : r = q := by
  induction r using List.reverseRecOn generalizing q with
  | nil =>
    rcases eq_nil_or_concat' q with rfl | ⟨q, turn, rfl⟩
    · rfl
    · have hbound := (number_bounds q).1
      have hpos := Nat.two_pow_pos q.length
      rw [number_nil, number_concat] at h
      omega
  | append_singleton r turn ih =>
    rcases eq_nil_or_concat' q with rfl | ⟨q, turn', rfl⟩
    · have hbound := (number_bounds r).1
      have hpos := Nat.two_pow_pos r.length
      rw [number_nil, number_concat] at h
      omega
    · rw [number_concat, number_concat] at h
      have hle := turn.toNat_le
      have hle' := turn'.toNat_le
      have hturn : turn.toNat = turn'.toNat := by omega
      have hsame : turn = turn' := by cases turn <;> cases turn' <;> simp_all
      rw [ih (q := q) (by omega), hsame]

/-- A common route, from which one leads to the first part and the other to the second. -/
def Before (r q : Route) : Prop :=
  ∃ p a b, r = p ++ false :: a ∧ q = p ++ true :: b

theorem Before.of_turns {p r q : Route} (hr : p ++ [false] <+: r) (hq : p ++ [true] <+: q) :
    Before r q := by
  obtain ⟨a, rfl⟩ := hr
  obtain ⟨b, rfl⟩ := hq
  exact ⟨p, a, b, by simp, by simp⟩

theorem Before.asymm {r q : Route} (h : Before r q) : ¬ Before q r := by
  obtain ⟨p, a, b, rfl, rfl⟩ := h
  rintro ⟨p', a', b', hq, hr⟩
  induction p generalizing p' with
  | nil => cases p' <;> simp_all
  | cons turn p ih =>
    cases p' with
    | nil => simp_all
    | cons turn' p' => exact ih p' (by simp_all) (by simp_all)

theorem Before.irrefl (r : Route) : ¬ Before r r := fun h => h.asymm h

/-- The routes to the leaves of a tree at a route, in order. -/
def leavesFrom : SplitTree → Route → List Route
  | leaf, r => [r]
  | node t u, r => t.leavesFrom (r ++ [false]) ++ u.leavesFrom (r ++ [true])

variable {t u : SplitTree} {r q : Route}

theorem prefix_of_mem_leavesFrom (h : q ∈ t.leavesFrom r) : r <+: q := by
  induction t generalizing r with
  | leaf => exact mem_singleton.mp h ▸ prefix_rfl
  | node t u iht ihu =>
    rcases mem_append.mp h with h | h
    · exact (prefix_append _ _).trans (iht h)
    · exact (prefix_append _ _).trans (ihu h)

theorem exists_mem_leavesFrom (t : SplitTree) (r : Route) : ∃ q, q ∈ t.leavesFrom r := by
  induction t generalizing r with
  | leaf => exact ⟨r, mem_singleton_self r⟩
  | node t u iht _ =>
    obtain ⟨q, hq⟩ := iht (r ++ [false])
    exact ⟨q, mem_append_left _ hq⟩

/-- The leaves after a turn are those of its subtree. -/
theorem mem_leavesFrom_of_turn (h : q ∈ (node t u).leavesFrom r) :
    (r ++ [false] <+: q → q ∈ t.leavesFrom (r ++ [false])) ∧
      (r ++ [true] <+: q → q ∈ u.leavesFrom (r ++ [true])) := by
  have hboth : r ++ [false] <+: q → ¬ r ++ [true] <+: q := fun h h' =>
    Before.irrefl q (.of_turns h h')
  rcases mem_append.mp h with h | h
  · exact ⟨fun _ => h, fun hq => absurd hq (hboth (prefix_of_mem_leavesFrom h))⟩
  · exact ⟨fun hq => absurd (prefix_of_mem_leavesFrom h) (hboth hq), fun _ => h⟩

/-- A part that was split is not a leaf. -/
theorem not_mem_leavesFrom_node : r ∉ (node t u).leavesFrom r := by
  intro h
  have hlen : ∀ turn : Bool, ¬ r ++ [turn] <+: r := fun turn h => by
    simpa using h.length_le
  rcases mem_append.mp h with h | h
  · exact hlen false (prefix_of_mem_leavesFrom h)
  · exact hlen true (prefix_of_mem_leavesFrom h)

theorem pairwise_leavesFrom (t : SplitTree) (r : Route) : (t.leavesFrom r).Pairwise Before := by
  induction t generalizing r with
  | leaf => exact pairwise_singleton _ _
  | node t u iht ihu =>
    exact pairwise_append.mpr ⟨iht _, ihu _, fun _ ha _ hb =>
      .of_turns (prefix_of_mem_leavesFrom ha) (prefix_of_mem_leavesFrom hb)⟩

/-- The leaf of a part is replaced by two leaves when the part is split. -/
theorem exists_split (h : q ∈ t.leavesFrom r) : ∃ t' l₁ l₂, t.leavesFrom r = l₁ ++ q :: l₂ ∧
      leavesFrom t' r = l₁ ++ (q ++ [false]) :: (q ++ [true]) :: l₂ := by
  induction t generalizing r with
  | leaf =>
    obtain rfl := mem_singleton.mp h
    exact ⟨node leaf leaf, [], [], rfl, rfl⟩
  | node t u iht ihu =>
    rcases mem_append.mp h with h | h
    · obtain ⟨t', l₁, l₂, ht, ht'⟩ := iht h
      exact ⟨node t' u, l₁, l₂ ++ u.leavesFrom (r ++ [true]), by simp [leavesFrom, ht],
        by simp [leavesFrom, ht']⟩
    · obtain ⟨u', l₁, l₂, hu, hu'⟩ := ihu h
      exact ⟨node t u', t.leavesFrom (r ++ [false]) ++ l₁, l₂, by simp [leavesFrom, hu],
        by simp [leavesFrom, hu']⟩

/-- Routes that are the leaves of a tree, in any order. -/
def Leaves (routes : List Route) : Prop := ∃ t : SplitTree, routes.Perm (t.leavesFrom [])

theorem Leaves.split {l l' : List Route} (h : Leaves (l ++ q :: l')) :
    Leaves (l ++ (q ++ [false]) :: (q ++ [true]) :: l') := by
  obtain ⟨t, ht⟩ := h
  have hq : q ∈ t.leavesFrom [] := ht.mem_iff.mp (by simp)
  obtain ⟨t', l₁, l₂, hleaves, hleaves'⟩ := exists_split hq
  have hrest : (l ++ l').Perm (l₁ ++ l₂) :=
    (perm_middle.symm.trans (ht.trans (hleaves ▸ perm_middle))).cons_inv
  have hpull : ∀ (a b : Route) (x y : List Route),
      (x ++ a :: b :: y).Perm (a :: b :: (x ++ y)) := fun a b x y =>
    perm_middle.trans (perm_middle.cons a)
  exact ⟨t', (hpull _ _ l l').trans
    (((hrest.cons _).cons _).trans (hleaves' ▸ (hpull _ _ l₁ l₂).symm))⟩

/-- Two elements are in the order of a sorted list. -/
theorem pair_sublist_of_pairwise {α : Type*} {R : α → α → Prop} {l : List α} (h : l.Pairwise R)
    {a b : α} (ha : a ∈ l) (hb : b ∈ l) (hne : a ≠ b) (hba : ¬ R b a) : [a, b].Sublist l := by
  obtain ⟨l₁, l₂, rfl⟩ := append_of_mem ha
  have hafter : b ∈ l₂ := by
    rcases mem_append.mp hb with hb | hb
    · exact absurd ((pairwise_append.mp h).2.2 b hb a mem_cons_self) hba
    · exact (mem_cons.mp hb).resolve_left (Ne.symm hne)
  exact (List.Sublist.cons_cons a (singleton_sublist.mpr hafter)).trans
    (sublist_append_right l₁ (a :: l₂))

end SplitTree
