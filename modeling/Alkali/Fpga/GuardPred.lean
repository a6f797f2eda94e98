import Alkali.Library.Synchronous
import Mathlib.Data.Fintype.Pi

/-!
# The module `guard_pred`

`guard_pred` joins the streams of some predicates, compares each row of tokens with the
ground truth that `emitGuardPredModule` computed, and replicates the verdict. The verdict is
one bit, but it is replicated by an `axis_replication` whose data are as wide as a row: the
outputs are the lowest bits of the replicas side by side.
-/

namespace Alkali.Fpga.GuardPred

open Synchronous List Circuit Fifo

variable (attrs : List Bool)

/-- The parameter `GROUND_TRUTH`, if the assertion on its length holds. -/
def groundTruth : Option Nat :=
  if attrs.length < 32 then some (attrs.foldl (fun g attr => g <<< 1 + attr.toNat) 0) else none

/-- The queues of the predicates and those of `axis_replication`. -/
structure Regs (n r : Nat) where
  cond : Fin n → List Bool
  replica : Fin r → List (Fin n → Bool)

/-- What the queue of a replica does in a cycle; `idle` are its data while it shows nothing. -/
structure Replica (n : Nat) where
  ready : Bool
  shows : Bool
  idle : Fin n → Bool

structure Inputs (n r : Nat) where
  cond : Fin n → Fifo.Port Bool
  replica : Fin r → Replica n
  ready : Fin r → Bool

structure Outputs (r : Nat) where
  tdata : Fin r → Bool
  tvalid : Fin r → Bool

variable {n r : Nat}

section Signals

variable (s : Regs n r) (i : Inputs n r)

def condFront (rid : Fin n) : Option Bool := front (i.cond rid).shows (s.cond rid)

/-- `&guard_fifo_valid_array`. -/
def allValid : Bool := decide (∀ rid, (condFront s i rid).isSome)

def guardFifoDataArray (rid : Fin n) : Bool := (condFront s i rid).getD false

/-- `replicate_guard_cond_in_tready`. -/
def replicateReady : Bool := decide (∀ rid, (i.replica rid).ready)

/-- A row is taken from the queues. -/
def takes : Bool := replicateReady i && allValid s i

def replicaFront (rid : Fin r) : Option (Fin n → Bool) :=
  front (i.replica rid).shows (s.replica rid)

/-- `m_axis_out_tdata` of `axis_replication`: the data of the replicas side by side. -/
def outTdata (b : Fin (r * n)) : Bool :=
  (replicaFront s i b.divNat).getD (i.replica b.divNat).idle b.modNat

/-- `m_guard_cond` is only as wide as there are replicas. -/
def output : Outputs r where
  tdata o := if h : o < r * n then outTdata s i ⟨o, h⟩ else false
  tvalid o := (replicaFront s i o).isSome

end Signals

/-- `replicate_guard_cond_in_tdata`, extended to the width of a row. -/
def verdict (truth row : Fin n → Bool) (b : Fin n) : Bool := decide (b.val = 0) && row == truth

variable (truth : Fin n → Bool)

def next (s : Regs n r) (i : Inputs n r) : Regs n r where
  cond rid := Fifo.next (i.cond rid).shows (takes s i) (s.cond rid) (i.cond rid).pushed
  replica rid := Fifo.next (i.replica rid).shows (i.ready rid) (s.replica rid)
    (if takes s i then some (verdict truth (guardFifoDataArray s i)) else none)

/-- The module `guard_pred` with the parameters `COND_WIDTH`, `REPLICATED_OUT_NUM` and
`GROUND_TRUTH`. -/
def guardPred (n r truth : Nat) : Circuit (Regs n r) (Inputs n r) (Outputs r) where
  init := ⟨fun _ => [], fun _ => []⟩
  output := output
  next := next fun rid => truth.testBit rid

/-! ## What the module is for -/

def accepted (rid : Fin n) (i : Inputs n r) (_ : Outputs r) : Option Bool := (i.cond rid).pushed

def sent (o : Fin r) (i : Inputs n r) (out : Outputs r) : Option Bool :=
  if i.ready o && out.tvalid o then some (out.tdata o) else none

/-- The tokens of an output say of each row of predicates whether it is the attributes. -/
def Agrees (preds : Fin attrs.length → List Bool) (out : List Bool) : Prop :=
  ∀ (k : Nat) (v : Bool), out[k]? = some v → ∃ row : Fin attrs.length → Bool,
    (∀ j, (preds j)[k]? = some (row j)) ∧ (v = true ↔ ∀ j, row j = attrs.get j)

/-- The predicates are concatenated: the first one is the highest bit. -/
def predTokens (attrs : List Bool) (h : List (Inputs attrs.length r × Outputs r))
    (j : Fin attrs.length) : List Bool :=
  transfers (accepted j.rev) h

/-! ## The ground truth -/

theorem testBit_foldl (b : Nat) : (attrs.foldl (fun g attr => g <<< 1 + attr.toNat) 0).testBit b =
      attrs.reverse[b]?.getD false := by
  induction attrs using List.reverseRecOn generalizing b with
  | nil => simp
  | append_singleton attrs attr ih =>
    rw [foldl_append, foldl_cons, foldl_nil, reverse_append]
    generalize attrs.foldl (fun g attr => g <<< 1 + attr.toNat) 0 = g at ih
    cases b with
    | zero => cases attr <;> simp [Nat.shiftLeft_eq]
    | succ b =>
      have hdiv : (g <<< 1 + attr.toNat) / 2 = g := by
        have hattr := attr.toNat_lt
        omega
      rw [Nat.testBit_succ, hdiv, ih]
      rfl

variable {g : Nat} {s : Regs n r}

theorem testBit_groundTruth {attrs : List Bool} (hg : groundTruth attrs = some g)
    (j : Fin attrs.length) : g.testBit j.rev = attrs.get j := by
  rw [groundTruth] at hg
  split at hg
  · cases hg
    rw [testBit_foldl, getElem?_reverse (by omega)]
    have hj : attrs.length - 1 - (j.rev : Nat) = j := by
      rw [Fin.val_rev]
      omega
    rw [hj, getElem?_eq_getElem j.isLt]
    rfl
  · cases hg

/-! ## One cycle -/

theorem condFront_of_takes {i : Inputs n r} (h : takes s i) (rid : Fin n) :
    condFront s i rid = some (guardFifoDataArray s i rid) := by
  rw [takes, Bool.and_eq_true, allValid, decide_eq_true_eq] at h
  obtain ⟨v, hv⟩ := Option.isSome_iff_exists.mp (h.2 rid)
  rw [guardFifoDataArray, hv]
  rfl

/-- If rows or replicas are single, each output shows the lowest bit of its replica. -/
theorem sent_output (hwidth : n = 1 ∨ r ≤ 1) (hn : 0 < n) (s : Regs n r) (i : Inputs n r)
    (o : Fin r) :
    sent o i (output s i) =
      (popped (i.replica o).shows (i.ready o) (s.replica o)).map fun d => d ⟨0, hn⟩ := by
  have hlt : o < r * n := o.isLt.trans_le (Nat.le_mul_of_pos_right r hn)
  have hdiv : (⟨o, hlt⟩ : Fin (r * n)).divNat = o := by
    apply Fin.ext
    rcases hwidth with rfl | hr
    · exact Nat.div_one _
    · have ho : (o : Nat) = 0 := by omega
      rw [Fin.coe_divNat, ho, Nat.zero_div]
  have hmod : (⟨o, hlt⟩ : Fin (r * n)).modNat = ⟨0, hn⟩ := by
    apply Fin.ext
    rcases hwidth with rfl | hr
    · exact Nat.mod_one _
    · have ho : (o : Nat) = 0 := by omega
      rw [Fin.coe_modNat, ho, Nat.zero_mod]
  rw [sent, output, popped]
  simp only [hlt, dif_pos, outTdata, hdiv, hmod]
  cases hrdy : i.ready o
  · simp
  · cases hfront : replicaFront s i o <;> rw [replicaFront] at hfront <;> simp [hfront]

/-! ## Runs -/

/-- The rows that were taken, and for each output those whose verdict was sent. -/
def Inv (hn : 0 < n) (h : List (Inputs n r × Outputs r)) (s : Regs n r) : Prop :=
  ∃ rows : List (Fin n → Bool),
    (∀ rid, transfers (accepted rid) h = rows.map (fun row => row rid) ++ s.cond rid) ∧
    ∀ o, ∃ out, rows.map (verdict truth) = out ++ s.replica o ∧
      transfers (sent o) h = out.map fun d => d ⟨0, hn⟩

theorem inv_step {truth : Fin n → Bool} (hwidth : n = 1 ∨ r ≤ 1) {hn : 0 < n}
    {h : List (Inputs n r × Outputs r)} (hinv : Inv truth hn h s) (i : Inputs n r) :
    Inv truth hn (h ++ [(i, output s i)]) (next truth s i) := by
  obtain ⟨rows, hrows, houts⟩ := hinv
  -- the row that is taken in this cycle, if there is one
  refine ⟨rows ++ (if takes s i then some (guardFifoDataArray s i) else none).toList, ?_, ?_⟩
  · intro rid
    rw [transfers_concat, accepted,
      conserve (hrows rid) (i.cond rid).shows (takes s i) (i.cond rid).pushed, popped]
    cases htakes : takes s i
    · simp [next, htakes]
    · have hfront := condFront_of_takes htakes rid
      rw [condFront] at hfront
      simp [next, htakes, hfront]
  · intro o
    obtain ⟨out, hout, hsent⟩ := houts o
    have hout' := conserve hout (i.replica o).shows (i.ready o)
      (if takes s i then some (verdict truth (guardFifoDataArray s i)) else none)
    refine ⟨out ++ (popped (i.replica o).shows (i.ready o) (s.replica o)).toList, ?_, ?_⟩
    · rw [next, ← hout', map_append]
      cases takes s i <;> rfl
    · rw [transfers_concat, hsent, sent_output hwidth hn, map_append, Option.toList_map]

theorem verdict_zero (truth row : Fin n → Bool) (hn : 0 < n) :
    verdict truth row ⟨0, hn⟩ = (row == truth) := by
  simp [verdict]

theorem agrees_of_inv {attrs : List Bool} (hg : groundTruth attrs = some g)
    {hn : 0 < attrs.length} {h : List (Inputs attrs.length r × Outputs r)}
    {s : Regs attrs.length r} (hinv : Inv (fun rid => g.testBit rid) hn h s) (o : Fin r) :
    Agrees attrs (predTokens attrs h) (transfers (sent o) h) := by
  obtain ⟨rows, hrows, houts⟩ := hinv
  obtain ⟨out, hout, hsent⟩ := houts o
  intro k v hv
  rw [hsent, getElem?_map, Option.map_eq_some_iff] at hv
  obtain ⟨d, hd, rfl⟩ := hv
  have hk : (rows.map (verdict fun rid => g.testBit rid))[k]? = some d := by
    rw [hout, getElem?_append_left (List.getElem?_eq_some_iff.mp hd).1, hd]
  rw [getElem?_map, Option.map_eq_some_iff] at hk
  obtain ⟨row, hrow, rfl⟩ := hk
  refine ⟨fun j => row j.rev, ?_, ?_⟩
  · intro j
    rw [predTokens, hrows, getElem?_append_left, getElem?_map, hrow]
    · rfl
    · rw [length_map]
      exact (List.getElem?_eq_some_iff.mp hrow).1
  · rw [verdict_zero, beq_iff_eq, funext_iff]
    constructor
    · intro heq j
      exact (heq j.rev).trans (testBit_groundTruth hg j)
    · intro heq rid
      have hrid : row rid.rev.rev = g.testBit rid.rev.rev :=
        (heq rid.rev).trans (testBit_groundTruth hg rid.rev).symm
      rwa [Fin.rev_rev] at hrid

/-- A row that is the ground truth comes in, is taken, and its verdict is sent. -/
def matchingRun : List (Inputs n r) :=
  [⟨fun rid => ⟨some (truth rid), true, false⟩, fun _ => ⟨true, false, fun _ => false⟩,
      fun _ => true⟩,
    ⟨fun _ => ⟨none, true, true⟩, fun _ => ⟨true, false, fun _ => false⟩, fun _ => true⟩,
    ⟨fun _ => ⟨none, true, false⟩, fun _ => ⟨true, true, fun _ => false⟩, fun _ => true⟩]

/-- The second output takes its data from the second bit of the first replica, which is zero. -/
theorem sent_matchingRun (hn : 1 < n) (hr : 1 < r) (g : Nat) : transfers (sent ⟨1, hr⟩)
      ((guardPred n r g).trace (matchingRun fun rid => g.testBit rid)) = [false] := by
  have hne : ¬ ∀ _ : Fin n, False := fun h => h ⟨0, by omega⟩
  have hlt : 1 < r * n := hr.trans_le (Nat.le_mul_of_pos_right r (by omega))
  simp [matchingRun, guardPred, Circuit.trace, Circuit.traceFrom, transfers, sent,
    output, replicaFront, front, next, Fifo.next, takes, allValid, replicateReady,
    condFront, Fifo.Port.pushed, outTdata, hlt, verdict, hne, Nat.ne_of_gt hn]

theorem accepted_matchingRun (g : Nat) (rid : Fin n) : transfers (accepted rid)
      ((guardPred n r g).trace (matchingRun fun rid => g.testBit rid)) = [g.testBit rid] :=
  rfl

/-- Every output gets the verdict on every row if and only if there is one predicate or one
output. -/
theorem guardPred_agrees_iff {attrs : List Bool} {g : Nat} (hg : groundTruth attrs = some g)
    (hattrs : attrs ≠ []) (r : Nat) :
    (∀ (inputs : List (Inputs attrs.length r)) (o : Fin r),
      let h := (guardPred attrs.length r g).trace inputs
      Agrees attrs (predTokens attrs h) (transfers (sent o) h)) ↔
    attrs.length = 1 ∨ r ≤ 1 := by
  have hn : 0 < attrs.length := length_pos_of_ne_nil hattrs
  constructor
  · intro hagr
    by_contra hwidth
    have hr : 1 < r := by omega
    obtain ⟨row, hrow, hv⟩ := hagr (matchingRun fun rid => g.testBit rid) ⟨1, hr⟩ 0 false
      (by rw [sent_matchingRun (by omega) hr]; rfl)
    have hall : ∀ j, row j = attrs.get j := by
      intro j
      have hj := hrow j
      rw [predTokens, accepted_matchingRun, testBit_groundTruth hg] at hj
      exact (Option.some.inj hj).symm
    cases hv.mpr hall
  · intro hwidth inputs o
    refine agrees_of_inv hg (Circuit.invariant (P := Inv _ hn) ?_ ?_
      (along_true inputs)) o
    · exact ⟨[], fun _ => rfl, fun _ => ⟨[], rfl, rfl⟩⟩
    · exact fun _ _ i hinv _ => inv_step hwidth hinv i

theorem guardPred_agrees_two_outputs :
    groundTruth [true] = some 1 ∧ ∀ (inputs : List (Inputs 1 2)) (o : Fin 2),
      let h := (guardPred 1 2 1).trace inputs
      Agrees [true] (predTokens [true] h) (transfers (sent o) h) := by
  have hg : groundTruth [true] = some 1 := rfl
  exact ⟨hg, (guardPred_agrees_iff hg (by decide) 2).mpr (Or.inl rfl)⟩

/-- Two predicates are true as they should be, but the second output says no. -/
theorem guardPred_disagrees : let h := (guardPred 2 2 3).trace (matchingRun fun _ => true)
    groundTruth [true, true] = some 3 ∧ predTokens [true, true] h 0 = [true] ∧
      predTokens [true, true] h 1 = [true] ∧ transfers (sent 0) h = [true] ∧
      transfers (sent 1) h = [false] ∧
      ¬ Agrees [true, true] (predTokens [true, true] h) (transfers (sent 1) h) := by
  refine ⟨rfl, rfl, rfl, rfl, rfl, ?_⟩
  intro hagr
  obtain ⟨row, hrow, hv⟩ := hagr 0 false rfl
  have hfirst := Option.some.inj (hrow 0)
  have hsecond := Option.some.inj (hrow 1)
  have hall : ∀ j, row j = [true, true].get j :=
    Fin.forall_fin_two.mpr ⟨hfirst.symm, hsecond.symm⟩
  cases hv.mpr hall

end Alkali.Fpga.GuardPred
