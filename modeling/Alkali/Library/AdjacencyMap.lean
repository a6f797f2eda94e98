import Mathlib.Data.List.Induction

/-!
# Adjacency maps with insert-or-assign edges

A map from vertices to weighted successors. Assigning an edge that exists
replaces its weight, and assigning an edge makes its source a vertex of the
map. Its target becomes a vertex only by an entry of its own.
-/

/-- A weighted directed graph in which a pair of vertices has at most one edge
as long as it is built by `assign`. -/
structure AdjacencyMap (V W : Type*) where
  keys : List V
  edges : List (V × V × W)
  deriving DecidableEq

namespace AdjacencyMap

open List

variable {V W : Type*} [DecidableEq V]

/-- The map without vertices. -/
def empty : AdjacencyMap V W := ⟨[], []⟩

/-- `m[v]`, which creates the entry of `v`. -/
def addKey (m : AdjacencyMap V W) (v : V) : AdjacencyMap V W :=
  { m with keys := if v ∈ m.keys then m.keys else v :: m.keys }

/-- `m[s][d] = w`. -/
def assign (m : AdjacencyMap V W) (s d : V) (w : W) : AdjacencyMap V W :=
  { keys := (m.addKey s).keys
    edges := (s, d, w) :: m.edges.filter fun e => ¬ (e.1 = s ∧ e.2.1 = d) }

/-- Apply `g` to the weight of every edge. -/
def mapWeights (m : AdjacencyMap V W) (g : V → V → W → W) : AdjacencyMap V W :=
  { m with edges := m.edges.map fun e => (e.1, e.2.1, g e.1 e.2.1 e.2.2) }

variable {m : AdjacencyMap V W} {s d : V} {w : W}

@[simp] theorem mem_keys_addKey {v u : V} : u ∈ (m.addKey v).keys ↔ u = v ∨ u ∈ m.keys := by
  by_cases h : v ∈ m.keys
  · simp only [addKey, if_pos h]
    constructor
    · exact Or.inr
    · rintro (rfl | hu)
      · exact h
      · exact hu
  · simp [addKey, h]

@[simp] theorem mem_keys_assign {u : V} : u ∈ (m.assign s d w).keys ↔ u = s ∨ u ∈ m.keys := by
  simp [assign]

@[simp] theorem mem_edges_assign {e : V × V × W} : e ∈ (m.assign s d w).edges ↔
      e = (s, d, w) ∨ (¬ (e.1 = s ∧ e.2.1 = d) ∧ e ∈ m.edges) := by
  simp only [assign, mem_cons, mem_filter, decide_eq_true_eq]
  rw [and_comm]

omit [DecidableEq V] in
@[simp] theorem mem_edges_mapWeights {g : V → V → W → W} :
    (s, d, w) ∈ (m.mapWeights g).edges ↔ ∃ w', (s, d, w') ∈ m.edges ∧ g s d w' = w := by
  simp only [mapWeights, mem_map, Prod.mk.injEq]
  constructor
  · rintro ⟨⟨s', d', w'⟩, h, rfl, rfl, rfl⟩
    exact ⟨w', h, rfl⟩
  · rintro ⟨w', h, rfl⟩
    exact ⟨(s, d, w'), h, rfl, rfl, rfl⟩

/-- One statement that extends a map. -/
inductive Write (V W : Type*)
  | key (v : V)
  | edge (s d : V) (w : W)

namespace Write

/-- The vertex whose entry the statement touches. -/
def vertex : Write V W → V
  | key v => v
  | edge s _ _ => s

def apply (x : Write V W) (m : AdjacencyMap V W) : AdjacencyMap V W :=
  match x with
  | key v => m.addKey v
  | edge s d w => m.assign s d w

theorem mem_keys_apply {m : AdjacencyMap V W} {x : Write V W} {u : V} :
    u ∈ (x.apply m).keys ↔ u = x.vertex ∨ u ∈ m.keys := by
  cases x with
  | key v => exact mem_keys_addKey
  | edge s d w => exact mem_keys_assign

end Write

/-- Execute a list of statements in order. -/
def ofWrites (ws : List (Write V W)) : AdjacencyMap V W :=
  ws.foldl (fun m x => x.apply m) empty

theorem ofWrites_append_singleton (ws : List (Write V W)) (x : Write V W) :
    ofWrites (ws ++ [x]) = x.apply (ofWrites ws) := by
  simp [ofWrites]

variable {ws : List (Write V W)}

theorem mem_keys_ofWrites {v : V} : v ∈ (ofWrites ws).keys ↔ ∃ x ∈ ws, x.vertex = v := by
  induction ws using List.reverseRecOn with
  | nil => simp [ofWrites, empty]
  | append_singleton ws x ih =>
    rw [ofWrites_append_singleton]
    rw [Write.mem_keys_apply, ih]
    constructor
    · rintro (rfl | ⟨y, hy, rfl⟩)
      · exact ⟨x, by simp, rfl⟩
      · exact ⟨y, mem_append_left _ hy, rfl⟩
    · rintro ⟨y, hy, rfl⟩
      rcases mem_append.mp hy with hy | hy
      · exact Or.inr ⟨y, hy, rfl⟩
      · exact Or.inl (by rw [mem_singleton.mp hy])

/-- Every edge of the map was assigned by some statement. -/
theorem mem_writes_of_mem_edges (h : (s, d, w) ∈ (ofWrites ws).edges) : Write.edge s d w ∈ ws := by
  induction ws using List.reverseRecOn with
  | nil => simp [ofWrites, empty] at h
  | append_singleton ws x ih =>
    rw [ofWrites_append_singleton] at h
    cases x with
    | key u => exact mem_append_left _ (ih h)
    | edge s' d' w' =>
      rcases mem_edges_assign.mp h with heq | ⟨_, h⟩
      · cases heq
        simp
      · exact mem_append_left _ (ih h)

/-- An assigned edge is an edge of the map, if only at a later weight. -/
theorem exists_mem_edges_of_writes (h : Write.edge s d w ∈ ws) :
    ∃ w', (s, d, w') ∈ (ofWrites ws).edges := by
  induction ws using List.reverseRecOn with
  | nil => cases h
  | append_singleton ws x ih =>
    rw [ofWrites_append_singleton]
    rcases mem_append.mp h with hold | hnew
    · obtain ⟨w', hw'⟩ := ih hold
      cases x with
      | key u => exact ⟨w', hw'⟩
      | edge s' d' w'' =>
        by_cases hsame : s = s' ∧ d = d'
        · obtain ⟨rfl, rfl⟩ := hsame
          exact ⟨w'', by simp [Write.apply]⟩
        · exact ⟨w', mem_edges_assign.mpr (Or.inr ⟨hsame, hw'⟩)⟩
    · rw [mem_singleton] at hnew
      subst hnew
      exact ⟨w, by simp [Write.apply]⟩

/-- An edge that is only ever assigned one weight has that weight. -/
theorem mem_edges_of_writes (h : Write.edge s d w ∈ ws)
    (hunique : ∀ w', Write.edge s d w' ∈ ws → w' = w) : (s, d, w) ∈ (ofWrites ws).edges := by
  obtain ⟨w', hw'⟩ := exists_mem_edges_of_writes h
  rwa [hunique w' (mem_writes_of_mem_edges hw')] at hw'

end AdjacencyMap
