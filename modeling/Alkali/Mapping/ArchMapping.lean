import Alkali.Dialect.Ops
import Mathlib.Tactic

/-!
# Replicas on compute units

`ArchMappingPass` gives a solver one integer variable for each replica of a handler. Zero is a
replica that is not mapped; the compute units are numbered from one. A model of the constraints
is read back as lists of units.
-/

namespace Alkali.ArchMapping

open Finset

structure ArchSpec where
  computeUnits : List String
  communicationMatrix : List (List Int)
  deriving DecidableEq, Repr

inductive CostModel
  | simple
  | fpga
  deriving DecidableEq, Repr

def unitTick : Int := 1000

/-- Table accesses of a block; those of nested regions are not seen. -/
def isTableAccess : Operation → Bool
  | .plain ⟨_, .lookup _, _, _⟩ | .plain ⟨_, .update _, _, _⟩ => true
  | _ => false

def CostModel.computationCost : CostModel → FuncOp → Nat
  | simple, _ => 1
  | fpga, f => if f.blocks.any fun blk => blk.ops.any isTableAccess then 3 else 1

/-- The handlers that are not external, and which of them come after one another. -/
structure Problem (k : Nat) where
  spec : ArchSpec
  costModel : CostModel
  func : Fin k → FuncOp
  successors : Fin k → List (Fin k)

/-- The values of the variables of the replicas, and what the solver takes for a division by
zero. The variables `cost` and `cu` have the values of the sums that they are equal to. -/
structure Model (k : Nat) where
  rep : Fin k → Nat → Int
  divZero : Int → Int

namespace Problem

variable {k : Nat} (p : Problem k) (m : Model k)

def numUnits : Nat := p.spec.computeUnits.length

variable (h : Fin k)

def cost : Nat := p.costModel.computationCost (p.func h)

/-- The bound is computed in `size_t`. -/
def maxReplications : Nat :=
  min (p.cost h * 3) ((p.numUnits + 2 ^ 64 - k + 1) % 2 ^ 64)

def oneOf (index₁ index₂ : Int) : Int :=
  if index₁ = index₂ then 0
  else if 1 < p.numUnits then ((p.spec.communicationMatrix[0]?.bind (·[1]?)).getD 0) else 0

/-- The value of the variable `cost` of a replica. -/
def repCost (h : Fin k) (r : Nat) : Int :=
  ((p.successors h).map fun s =>
      ∑ r' ∈ range (p.maxReplications s), p.oneOf (m.rep h r) (m.rep s r')).sum +
    p.cost h

/-- The value of the variable `cu` with a number. -/
def ticksPerCU (i : Int) : Int :=
  ∑ h, ∑ r ∈ range (p.maxReplications h), if m.rep h r = i then p.repCost m h r else 0

/-- The quotient of the solver. -/
def quotient (t : Int) : Int := if t = 0 then m.divZero unitTick else unitTick / t

def funcTput : Int :=
  ∑ r ∈ range (p.maxReplications h), ∑ i ∈ range p.numUnits,
    if m.rep h r = i + 1 then quotient m (p.ticksPerCU m (i + 1)) + 1 else 0

def getTargetThroughput (_ : Fin k) : Int := unitTick

/-- The constraints. -/
structure Accepted : Prop where
  range : ∀ h, ∀ r < p.maxReplications h, 0 ≤ m.rep h r ∧ m.rep h r ≤ p.numUnits
  distinct : ∀ h, ∀ r < p.maxReplications h, ∀ r' < r,
    m.rep h r = 0 ∨ m.rep h r' = 0 ∨ m.rep h r ≠ m.rep h r'
  throughput : ∀ h, getTargetThroughput h ≤ p.funcTput m h

/-- The replicas that are mapped. -/
def mapped : Finset Nat :=
  (range (p.maxReplications h)).filter fun r => m.rep h r ≠ 0

/-- The position at which `extractSolution` reads the units. -/
def position (v : Int) : Nat := v.toNat

/-- The units of the replicas of a handler. -/
def extractSolution : Option (List String) :=
  (((List.range (p.maxReplications h)).map (m.rep h)).filter (· ≠ 0)).mapM fun v =>
    p.spec.computeUnits[position v]?

/-- The position of the unit whose ticks are the variable `cu` with a number. -/
def charged (v : Int) : Nat := (v - 1).toNat

/-- Each replica gets the unit that is charged for it, and replicas of a handler different
units. -/
structure Decodes : Prop where
  inside : ∀ h, ∀ r ∈ p.mapped m h, position (m.rep h r) < p.numUnits
  charged : ∀ h, ∀ r ∈ p.mapped m h, position (m.rep h r) = charged (m.rep h r)
  distinct : ∀ h, ∀ r ∈ p.mapped m h, ∀ r' ∈ p.mapped m h, r ≠ r' →
    position (m.rep h r) ≠ position (m.rep h r')

variable {p m}

theorem Accepted.rep_pos (hm : p.Accepted m) {h : Fin k} {r : Nat} (hr : r ∈ p.mapped m h) :
    0 < m.rep h r ∧ m.rep h r ≤ p.numUnits := by
  obtain ⟨hr, hne⟩ := mem_filter.mp hr
  have hrange := hm.range h r (mem_range.mp hr)
  omega

/-- A replica has the throughput of its unit. -/
theorem Accepted.funcTput_eq (hm : p.Accepted m) (h : Fin k) :
    p.funcTput m h = ∑ r ∈ p.mapped m h, (quotient m (p.ticksPerCU m (m.rep h r)) + 1) := by
  rw [funcTput, mapped, sum_filter]
  refine sum_congr rfl fun r hr => ?_
  obtain ⟨hlow, hhigh⟩ := hm.range h r (mem_range.mp hr)
  by_cases hzero : m.rep h r = 0
  · rw [if_neg (not_not.mpr hzero)]
    exact sum_eq_zero fun i _ => if_neg (by omega)
  · rw [if_pos hzero, sum_eq_single (m.rep h r - 1).toNat]
    · have hunit : ((m.rep h r - 1).toNat : Int) + 1 = m.rep h r := by omega
      rw [hunit, if_pos rfl]
    · exact fun i _ hi => if_neg (by omega)
    · exact fun hout => absurd (mem_range.mpr (by omega)) hout

/-- Each handler has a replica that is mapped. -/
theorem Accepted.mapped_nonempty (hm : p.Accepted m) (h : Fin k) : (p.mapped m h).Nonempty := by
  rw [nonempty_iff_ne_empty]
  intro hemp
  have htput := hm.throughput h
  rw [hm.funcTput_eq, hemp, sum_empty] at htput
  exact absurd htput (by rw [getTargetThroughput]; decide)

/-- The units are numbered from one and read from zero: the mapping is right for no handler. -/
theorem decodes_iff (hm : p.Accepted m) : p.Decodes m ↔ k = 0 := by
  constructor
  · intro hdecodes
    by_contra hk
    obtain ⟨r, hr⟩ := hm.mapped_nonempty ⟨0, Nat.pos_of_ne_zero hk⟩
    have hsame := hdecodes.charged _ r hr
    have hpos := (hm.rep_pos hr).1
    rw [position, Problem.charged] at hsame
    omega
  · rintro rfl
    exact ⟨fun h => h.elim0, fun h => h.elim0, fun h => h.elim0⟩

/-! ## The throughput -/

/-- The exact throughput of a handler. -/
def exactTput (p : Problem k) (m : Model k) (h : Fin k) : ℚ :=
  ∑ r ∈ p.mapped m h, (unitTick : ℚ) / p.ticksPerCU m (m.rep h r)

/-- What the constraint counts for a unit beyond its exact throughput. -/
def rounding (m : Model k) (t : Int) : ℚ :=
  if t = 0 then m.divZero unitTick + 1 else 1 - (unitTick % t : Int) / t

theorem quotient_eq (t : Int) : ((quotient m t + 1 : Int) : ℚ) = unitTick / t + rounding m t := by
  rw [quotient, rounding]
  split_ifs with ht
  · simp [ht]
  · have hne : (t : ℚ) ≠ 0 := Int.cast_ne_zero.mpr ht
    have hdiv : (unitTick : ℚ) = t * (unitTick / t : Int) + (unitTick % t : Int) := by
      exact_mod_cast (Int.mul_ediv_add_emod unitTick t).symm
    push_cast
    field_simp
    linarith

/-- A unit with any load is counted with up to one packet too many. -/
theorem rounding_bounds {t : Int} (ht : 0 < t) : 0 < rounding m t ∧ rounding m t ≤ 1 := by
  have hpos : (0 : ℚ) < t := Int.cast_pos.mpr ht
  have hnonneg : (0 : ℚ) ≤ (unitTick % t : Int) := Int.cast_nonneg (Int.emod_nonneg _ ht.ne')
  have hlt : ((unitTick % t : Int) : ℚ) < t := Int.cast_lt.mpr (Int.emod_lt_of_pos _ ht)
  rw [rounding, if_neg ht.ne']
  refine ⟨sub_pos.mpr ((div_lt_one hpos).mpr hlt), sub_le_self _ (div_nonneg hnonneg hpos.le)⟩

theorem Accepted.funcTput_exact (hm : p.Accepted m) (h : Fin k) : (p.funcTput m h : ℚ) =
      p.exactTput m h + ∑ r ∈ p.mapped m h, rounding m (p.ticksPerCU m (m.rep h r)) := by
  rw [hm.funcTput_eq, exactTput, ← sum_add_distrib, Int.cast_sum]
  exact sum_congr rfl fun r _ => quotient_eq _

/-- The throughput is at most one packet for each replica below the target. -/
theorem Accepted.target_sub_card_le (hm : p.Accepted m) {h : Fin k}
    (hticks : ∀ r ∈ p.mapped m h, 0 < p.ticksPerCU m (m.rep h r)) :
    (getTargetThroughput h : ℚ) - (p.mapped m h).card ≤ p.exactTput m h := by
  have htput := Int.cast_le (R := ℚ).mpr (hm.throughput h)
  have hrounding : ∑ r ∈ p.mapped m h, rounding m (p.ticksPerCU m (m.rep h r)) ≤
      (p.mapped m h).card • (1 : ℚ) :=
    sum_le_card_nsmul _ _ _ fun r hr => (rounding_bounds (hticks r hr)).2
  rw [nsmul_one] at hrounding
  rw [hm.funcTput_exact] at htput
  linarith

end Problem

/-! ## Models -/

/-- One handler and one unit. -/
def oneUnit : Problem 1 := ⟨⟨["cu0"], [[0]]⟩, .simple, fun _ => ⟨"recv", []⟩, fun _ => []⟩

def oneReplica : Model 1 := ⟨fun _ r => if r = 0 then 1 else 0, id⟩

/-- The unit of the only replica is read behind the end of the list. -/
theorem oneUnit_not_decodes :
    oneUnit.Accepted oneReplica ∧ oneUnit.extractSolution oneReplica 0 = none ∧
      ¬ oneUnit.Decodes oneReplica :=
  ⟨⟨by decide +kernel, by decide +kernel, by decide +kernel⟩, by decide +kernel,
    fun h => absurd (h.inside 0 0 (by decide +kernel)) (by decide +kernel)⟩

/-- Eleven units at a distance of two ticks. The first handler accesses a table and sends to the
second one. -/
def elevenUnits : Problem 3 where
  spec := ⟨List.replicate 11 "cu", List.replicate 11 (List.replicate 11 2)⟩
  costModel := .fpga
  func := ![⟨"lookup",
      [⟨[], [.plain ⟨0, .lookup "flows", [0, 1], [(2, .int 32)]⟩], 1, .terminate⟩]⟩,
    ⟨"send", []⟩, ⟨"count", []⟩]
  successors := ![[1], [], []]

/-- Nine replicas of the first handler; one of them shares its unit with the second handler, and
two with the third. -/
def nineReplicas : Model 3 where
  rep h r := (![[1, 2, 3, 4, 5, 6, 7, 8, 9], [10, 1, 0], [11, 2, 3]] h).getD r 0
  divZero := id

theorem elevenUnits_accepted : elevenUnits.Accepted nineReplicas :=
  ⟨by decide +kernel, by decide +kernel, by decide +kernel⟩

/-- No handler is to be mapped. -/
def noHandlers : Problem 0 := ⟨⟨["cu0"], [[0]]⟩, .simple, Fin.elim0, Fin.elim0⟩

/-- The mapping of nine replicas is read wrongly, and one of no handlers is right. -/
theorem elevenUnits_decodes : ¬ elevenUnits.Decodes nineReplicas ∧
      noHandlers.Accepted ⟨Fin.elim0, id⟩ ∧ noHandlers.Decodes ⟨Fin.elim0, id⟩ :=
  have hm : noHandlers.Accepted ⟨Fin.elim0, id⟩ :=
    ⟨fun h => h.elim0, fun h => h.elim0, fun h => h.elim0⟩
  ⟨fun h => absurd ((Problem.decodes_iff elevenUnits_accepted).mp h) (by decide), hm,
    (Problem.decodes_iff hm).mpr rfl⟩

theorem elevenUnits_rounding : (Problem.getTargetThroughput (0 : Fin 3) : ℚ) - 9 ≤
    elevenUnits.exactTput nineReplicas 0 := by
  have hcard : (elevenUnits.mapped nineReplicas 0).card = 9 := by decide +kernel
  have hle := elevenUnits_accepted.target_sub_card_le (h := 0) (by decide +kernel)
  rwa [hcard] at hle

end Alkali.ArchMapping
