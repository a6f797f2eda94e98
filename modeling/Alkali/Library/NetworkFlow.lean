import Mathlib.Tactic

/-!
# Integral flows on networks with parallel edges

Edges are an arbitrary finite type, so that two edges may join the same pair
of vertices. The residual relation of a flow is followed from the source; the
value of a flow is the capacity that leaves any set closed under it, and a
maximum flow keeps the sink outside of such a set.
-/

open Finset

namespace NetworkFlow

open Finset

variable {V E : Type*}

/-- A directed network: endpoints and capacity of every edge. -/
structure Network (V E : Type*) where
  source : V
  sink : V
  src : E → V
  dst : E → V
  cap : E → ℤ

variable [DecidableEq V] [Fintype E] (N : Network V E) (f : E → ℤ)

/-- The flow leaving `v`. -/
def outflow (v : V) : ℤ := ∑ e with N.src e = v, f e

/-- The flow entering `v`. -/
def inflow (v : V) : ℤ := ∑ e with N.dst e = v, f e

/-- The net flow produced at `v`. -/
def excess (v : V) : ℤ := outflow N f v - inflow N f v

/-- The value of a flow is what the source produces. -/
def value : ℤ := excess N f N.source

/-- A feasible flow respects every capacity and is conserved at every vertex
other than the source and the sink. -/
structure IsFlow : Prop where
  nonneg : ∀ e, 0 ≤ f e
  le_cap : ∀ e, f e ≤ N.cap e
  conserved : ∀ v, v ≠ N.source → v ≠ N.sink → excess N f v = 0

/-- A feasible flow whose value no feasible flow exceeds. -/
structure IsMaxFlow : Prop extends IsFlow N f where
  maximal : ∀ g, IsFlow N g → value N g ≤ value N f

omit [DecidableEq V] [Fintype E] in
/-- An edge can carry more flow, or give back some of the flow it carries. -/
def Residual (u v : V) : Prop :=
  ∃ e, (N.src e = u ∧ N.dst e = v ∧ f e < N.cap e) ∨ (N.dst e = u ∧ N.src e = v ∧ 0 < f e)

/-- The capacity of the edges leaving `S`. -/
def cutCapacity (S : Finset V) : ℤ :=
  ∑ e with N.src e ∈ S ∧ N.dst e ∉ S, N.cap e

section Cuts

variable {N} {f : E → ℤ} {S : Finset V}

theorem sum_outflow (f : E → ℤ) (S : Finset V) :
    ∑ v ∈ S, outflow N f v = ∑ e with N.src e ∈ S, f e := by
  simp only [outflow, sum_filter]
  rw [sum_comm]
  apply sum_congr rfl
  simp

theorem sum_inflow (f : E → ℤ) (S : Finset V) :
    ∑ v ∈ S, inflow N f v = ∑ e with N.dst e ∈ S, f e := by
  simp only [inflow, sum_filter]
  rw [sum_comm]
  apply sum_congr rfl
  simp

theorem sum_excess (f : E → ℤ) (S : Finset V) : ∑ v ∈ S, excess N f v =
      (∑ e with N.src e ∈ S ∧ N.dst e ∉ S, f e) -
        ∑ e with N.src e ∉ S ∧ N.dst e ∈ S, f e := by
  simp only [excess, sum_sub_distrib]
  rw [sum_outflow, sum_inflow]
  simp only [sum_filter, ← sum_sub_distrib]
  apply sum_congr rfl
  intro e _
  by_cases hs : N.src e ∈ S <;> by_cases hd : N.dst e ∈ S <;> simp [hs, hd]

section

variable (hf : IsFlow N f) (hs : N.source ∈ S) (ht : N.sink ∉ S)
include hf hs ht

/-- All vertices of a set around the source are balanced, except the source. -/
theorem sum_excess_eq_value : ∑ v ∈ S, excess N f v = value N f := by
  apply sum_eq_single_of_mem N.source hs
  intro v hv hne
  exact hf.conserved v hne (fun h => ht (h ▸ hv))

/-- The value of a flow is its net flow across any separating set. -/
theorem value_eq_across : value N f = (∑ e with N.src e ∈ S ∧ N.dst e ∉ S, f e) -
      ∑ e with N.src e ∉ S ∧ N.dst e ∈ S, f e := by
  rw [← sum_excess_eq_value hf hs ht, sum_excess]

/-- Weak duality: no flow exceeds the capacity of a separating set. -/
theorem value_le_cutCapacity : value N f ≤ cutCapacity N S := by
  rw [value_eq_across hf hs ht, cutCapacity]
  have hout : (∑ e with N.src e ∈ S ∧ N.dst e ∉ S, f e) ≤
      ∑ e with N.src e ∈ S ∧ N.dst e ∉ S, N.cap e :=
    sum_le_sum fun e _ => hf.le_cap e
  have hin : 0 ≤ ∑ e with N.src e ∉ S ∧ N.dst e ∈ S, f e :=
    sum_nonneg fun e _ => hf.nonneg e
  linarith

variable (hclosed : ∀ u ∈ S, ∀ v, Residual N f u v → v ∈ S)
include hclosed

/-- A set closed under the residual relation is left by saturated edges and
entered by empty ones, so its capacity is the value of the flow. -/
theorem value_eq_cutCapacity : value N f = cutCapacity N S := by
  rw [value_eq_across hf hs ht, cutCapacity]
  have hout : (∑ e with N.src e ∈ S ∧ N.dst e ∉ S, f e) =
      ∑ e with N.src e ∈ S ∧ N.dst e ∉ S, N.cap e := by
    apply sum_congr rfl
    intro e he
    obtain ⟨hsrc, hdst⟩ := (mem_filter.mp he).2
    apply le_antisymm (hf.le_cap e)
    by_contra hlt
    exact hdst (hclosed _ hsrc _ ⟨e, Or.inl ⟨rfl, rfl, not_le.mp hlt⟩⟩)
  have hin : (∑ e with N.src e ∉ S ∧ N.dst e ∈ S, f e) = 0 := by
    apply sum_eq_zero
    intro e he
    obtain ⟨hsrc, hdst⟩ := (mem_filter.mp he).2
    apply le_antisymm _ (hf.nonneg e)
    by_contra hlt
    exact hsrc (hclosed _ hdst _ ⟨e, Or.inr ⟨rfl, rfl, not_le.mp hlt⟩⟩)
  rw [hout, hin, sub_zero]

/-- Every edge that leaves a closed set has at most the value of the flow as
its capacity. -/
theorem cap_le_value {e : E} (hsrc : N.src e ∈ S) (hdst : N.dst e ∉ S) : N.cap e ≤ value N f := by
  rw [value_eq_cutCapacity hf hs ht hclosed, cutCapacity]
  apply single_le_sum (f := N.cap)
  · intro i _
    exact (hf.nonneg i).trans (hf.le_cap i)
  · simp [hsrc, hdst]

end

/-- Conservation only has to be checked at the ends of the edges. -/
theorem isFlow_of_ends (vs : Finset V) (hends : ∀ e, N.src e ∈ vs ∧ N.dst e ∈ vs)
    (hcap : ∀ e, 0 ≤ f e ∧ f e ≤ N.cap e)
    (hcons : ∀ v ∈ vs, v ≠ N.source → v ≠ N.sink → excess N f v = 0) : IsFlow N f where
  nonneg e := (hcap e).1
  le_cap e := (hcap e).2
  conserved v hs ht := by
    by_cases hv : v ∈ vs
    · exact hcons v hv hs ht
    · have hout : ∀ e, N.src e ≠ v := fun e he => hv (he ▸ (hends e).1)
      have hin : ∀ e, N.dst e ≠ v := fun e he => hv (he ▸ (hends e).2)
      simp [excess, outflow, inflow, hout, hin]

/-- A feasible flow that fills a separating set is a maximum flow. -/
theorem isMaxFlow_of_cut (hf : IsFlow N f) (hs : N.source ∈ S)
    (ht : N.sink ∉ S) (hcut : cutCapacity N S ≤ value N f) : IsMaxFlow N f :=
  { hf with maximal := fun _ hg => (value_le_cutCapacity hg hs ht).trans hcut }

end Cuts

section Augmentation

variable {N} {f : E → ℤ}

/-- The vertices that the residual relation reaches in at most `n` steps. -/
inductive ResidualWithin (N : Network V E) (f : E → ℤ) : Nat → V → Prop
  | start (n : Nat) : ResidualWithin N f n N.source
  | step {n : Nat} {u v : V} (h : ResidualWithin N f n u) (r : Residual N f u v) :
      ResidualWithin N f (n + 1) v

variable {n : Nat} {v : V} {d : E → ℤ}

omit [DecidableEq V] [Fintype E] in
theorem ResidualWithin.mono {m : Nat} (h : ResidualWithin N f n v) (hle : n ≤ m) :
    ResidualWithin N f m v := by
  induction h generalizing m with
  | start => exact .start m
  | step _ r ih =>
    cases m with
    | zero => omega
    | succ m => exact .step (ih (by omega)) r

/-- One unit of flow from the source to `v` that can be added to `f`. It only
uses edges between vertices found within `n` steps. -/
structure Unit (N : Network V E) (f : E → ℤ) (n : Nat) (v : V) (d : E → ℤ) : Prop where
  lower : ∀ e, 0 ≤ f e + d e
  upper : ∀ e, f e + d e ≤ N.cap e
  balance : ∀ w, excess N d w = (if w = N.source then 1 else 0) - (if w = v then 1 else 0)
  near : ∀ e, d e ≠ 0 → ResidualWithin N f n (N.src e) ∧ ResidualWithin N f n (N.dst e)

theorem excess_add (f g : E → ℤ) (v : V) :
    excess N (fun e => f e + g e) v = excess N f v + excess N g v := by
  simp only [excess, outflow, inflow, sum_add_distrib]
  ring

theorem excess_single [DecidableEq E] (e : E) (c : ℤ) (v : V) :
    excess N (fun i => if i = e then c else 0) v =
      (if v = N.src e then c else 0) - (if v = N.dst e then c else 0) := by
  simp only [excess, outflow, inflow, sum_ite_eq', mem_filter, mem_univ, true_and, @eq_comm _ v]

/-- The nothing-to-do unit at the source. -/
theorem Unit.source (hf : IsFlow N f) (n : Nat) : Unit N f n N.source (fun _ => 0) where
  lower e := by simpa using hf.nonneg e
  upper e := by simpa using hf.le_cap e
  balance w := by simp [excess, outflow, inflow]
  near e h := absurd rfl h

/-- A unit that ends at `u` is extended along an edge that it does not use. -/
theorem Unit.extend [DecidableEq E] {u : V} (hu : Unit N f n u d) (hn : ResidualWithin N f n u)
    (hv : ¬ ResidualWithin N f n v) (r : Residual N f u v) : ∃ d', Unit N f (n + 1) v d' := by
  obtain ⟨e, hr⟩ := r
  have hnear (i : E) (h : d i ≠ 0) := hu.near i h
  rcases hr with ⟨hsrc, hdst, hcap⟩ | ⟨hdst, hsrc, hpos⟩
  · have hzero : d e = 0 := by
      by_contra h
      exact hv (hdst ▸ (hnear e h).2)
    refine ⟨fun i => d i + if i = e then 1 else 0, ?_, ?_, ?_, ?_⟩
    · intro i
      have h := hu.lower i
      split <;> omega
    · intro i
      have h := hu.upper i
      by_cases hi : i = e
      · subst hi
        simp only [if_pos, hzero]
        omega
      · simpa [hi] using h
    · intro w
      rw [excess_add, excess_single, hu.balance, hsrc, hdst]
      ring
    · intro i hi
      by_cases hie : i = e
      · subst hie
        rw [hsrc, hdst]
        exact ⟨hn.mono (Nat.le_succ n), .step hn ⟨i, Or.inl ⟨hsrc, hdst, hcap⟩⟩⟩
      · have h := hnear i (by simpa [hie] using hi)
        exact ⟨h.1.mono (Nat.le_succ n), h.2.mono (Nat.le_succ n)⟩
  · have hzero : d e = 0 := by
      by_contra h
      exact hv (hsrc ▸ (hnear e h).1)
    refine ⟨fun i => d i + if i = e then -1 else 0, ?_, ?_, ?_, ?_⟩
    · intro i
      have h := hu.lower i
      by_cases hi : i = e
      · subst hi
        omega
      · simpa [hi] using h
    · intro i
      have h := hu.upper i
      split <;> omega
    · intro w
      rw [excess_add, excess_single, hu.balance, hsrc, hdst]
      split_ifs <;> omega
    · intro i hi
      by_cases hie : i = e
      · subst hie
        rw [hsrc, hdst]
        exact ⟨.step hn ⟨i, Or.inr ⟨hdst, hsrc, hpos⟩⟩, hn.mono (Nat.le_succ n)⟩
      · have h := hnear i (by simpa [hie] using hi)
        exact ⟨h.1.mono (Nat.le_succ n), h.2.mono (Nat.le_succ n)⟩

theorem Unit.mono {m : Nat} (h : Unit N f n v d) (hle : n ≤ m) : Unit N f m v d :=
  { h with near := fun e he => ⟨(h.near e he).1.mono hle, (h.near e he).2.mono hle⟩ }

/-- Every vertex that the residual relation reaches can receive a unit. The
induction is on the distance, which keeps the new edge unused so far. -/
theorem exists_unit [DecidableEq E] (hf : IsFlow N f) (h : ResidualWithin N f n v) :
    ∃ d, Unit N f n v d := by
  induction n generalizing v with
  | zero =>
    cases h
    exact ⟨_, Unit.source hf 0⟩
  | succ n ih =>
    by_cases hv : ResidualWithin N f n v
    · obtain ⟨d, hd⟩ := ih hv
      exact ⟨d, hd.mono (Nat.le_succ n)⟩
    · cases h with
      | start => exact absurd (.start n) hv
      | step hu r =>
        obtain ⟨d, hd⟩ := ih hu
        exact hd.extend hu hv r

omit [DecidableEq V] [Fintype E] in
theorem exists_residualWithin (h : Relation.ReflTransGen (Residual N f) N.source v) :
    ∃ n, ResidualWithin N f n v := by
  induction h with
  | refl => exact ⟨0, .start 0⟩
  | tail _ r ih =>
    obtain ⟨n, hn⟩ := ih
    exact ⟨n + 1, .step hn r⟩

/-- A unit that arrives at the sink makes a flow of larger value. -/
theorem Unit.isFlow (hf : IsFlow N f) (hd : Unit N f n N.sink d) :
    IsFlow N (fun e => f e + d e) where
  nonneg := hd.lower
  le_cap := hd.upper
  conserved v hs ht := by
    rw [excess_add, hf.conserved v hs ht, hd.balance, if_neg hs, if_neg ht]
    rfl

theorem Unit.value_succ (hne : N.source ≠ N.sink) (hd : Unit N f n N.sink d) :
    value N (fun e => f e + d e) = value N f + 1 := by
  rw [value, excess_add, hd.balance, if_pos rfl, if_neg hne, sub_zero, value]

/-- The residual relation of a maximum flow does not reach the sink. -/
theorem IsMaxFlow.sink_not_reachable (hf : IsMaxFlow N f) (hne : N.source ≠ N.sink) :
    ¬ Relation.ReflTransGen (Residual N f) N.source N.sink := by
  classical
  intro h
  obtain ⟨n, hn⟩ := exists_residualWithin h
  obtain ⟨d, hd⟩ := exists_unit hf.toIsFlow hn
  have hle := hf.maximal _ (hd.isFlow hf.toIsFlow)
  rw [hd.value_succ hne] at hle
  omega

end Augmentation

section MinCuts

variable {N} {f : E → ℤ} {S : Finset V}

/-- A set that separates the source from the sink at the smallest capacity. -/
structure IsMinCut (N : Network V E) (S : Finset V) : Prop where
  source : N.source ∈ S
  sink : N.sink ∉ S
  cheapest : ∀ T, N.source ∈ T → N.sink ∉ T → cutCapacity N S ≤ cutCapacity N T

/-- Vertices can be left to the sink if the edges that lead to them weigh no more than those
that lead from them to the sink. -/
theorem IsMinCut.sdiff (hS : IsMinCut N S) {X : Finset V} (hX : N.source ∉ X)
    (hle : ∑ e with N.src e ∈ S \ X ∧ N.dst e ∈ S ∩ X, N.cap e ≤
      ∑ e with N.src e ∈ S ∩ X ∧ N.dst e ∉ S, N.cap e) : IsMinCut N (S \ X) := by
  have hcut : cutCapacity N (S \ X) + ∑ e with N.src e ∈ S ∩ X ∧ N.dst e ∉ S, N.cap e =
      cutCapacity N S + ∑ e with N.src e ∈ S \ X ∧ N.dst e ∈ S ∩ X, N.cap e := by
    simp only [cutCapacity, sum_filter, ← sum_add_distrib, mem_sdiff, mem_inter]
    refine sum_congr rfl fun e _ => ?_
    by_cases hs : N.src e ∈ S <;> by_cases hx : N.src e ∈ X <;> by_cases hd : N.dst e ∈ S <;>
      by_cases hy : N.dst e ∈ X <;> simp [hs, hx, hd, hy]
  refine ⟨mem_sdiff.mpr ⟨hS.source, hX⟩, fun h => hS.sink (mem_sdiff.mp h).1, fun T hs ht => ?_⟩
  have hT := hS.cheapest T hs ht
  linarith

/-- No residual edge leaves a separating set that a flow fills. -/
theorem residual_closed_of_cut (hf : IsFlow N f) (hs : N.source ∈ S) (ht : N.sink ∉ S)
    (hcut : cutCapacity N S ≤ value N f) {u v : V} (hu : u ∈ S) (h : Residual N f u v) :
    v ∈ S := by
  have hacross := value_eq_across hf hs ht
  have hout : ∀ e ∈ univ.filter fun e => N.src e ∈ S ∧ N.dst e ∉ S, 0 ≤ N.cap e - f e :=
    fun e _ => sub_nonneg.mpr (hf.le_cap e)
  have hin : ∀ e ∈ univ.filter fun e => N.src e ∉ S ∧ N.dst e ∈ S, 0 ≤ f e :=
    fun e _ => hf.nonneg e
  have houtSum := sum_nonneg hout
  have hinSum := sum_nonneg hin
  rw [sum_sub_distrib] at houtSum
  rw [cutCapacity] at hcut
  by_contra hv
  obtain ⟨e, ⟨rfl, rfl, hlt⟩ | ⟨rfl, rfl, hlt⟩⟩ := h
  · have hle := single_le_sum hout (mem_filter.mpr ⟨mem_univ e, hu, hv⟩)
    rw [sum_sub_distrib] at hle
    linarith
  · have hle := single_le_sum hin (mem_filter.mpr ⟨mem_univ e, hv, hu⟩)
    linarith

section Reachable

variable (hf : IsMaxFlow N f) (hne : N.source ≠ N.sink) {R : Finset V}
  (hR : ∀ v, v ∈ R ↔ Relation.ReflTransGen (Residual N f) N.source v)
include hf hne hR

/-- The vertices that a maximum flow leaves reachable are a cheapest cut. -/
theorem IsMaxFlow.isMinCut_reachable : IsMinCut N R ∧ value N f = cutCapacity N R := by
  have hs : N.source ∈ R := (hR _).mpr .refl
  have ht : N.sink ∉ R := fun h => hf.sink_not_reachable hne ((hR _).mp h)
  have hvalue := value_eq_cutCapacity hf.toIsFlow hs ht fun u hu v h =>
    (hR v).mpr (((hR u).mp hu).tail h)
  exact ⟨⟨hs, ht, fun T hTs hTt => hvalue ▸ value_le_cutCapacity hf.toIsFlow hTs hTt⟩, hvalue⟩

/-- No cheapest cut leaves them to the sink. -/
theorem IsMaxFlow.mem_of_isMinCut (hS : IsMinCut N S) {v : V} (hv : v ∈ R) : v ∈ S := by
  obtain ⟨hmin, hvalue⟩ := hf.isMinCut_reachable hne hR
  have hcut : cutCapacity N S ≤ value N f := hvalue ▸ hS.cheapest R hmin.source hmin.sink
  have hreach := (hR v).mp hv
  induction hreach with
  | refl => exact hS.source
  | tail hrest hlast ih =>
    exact residual_closed_of_cut hf.toIsFlow hS.source hS.sink hcut (ih ((hR _).mpr hrest)) hlast

end Reachable

end MinCuts

end NetworkFlow
