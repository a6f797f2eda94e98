import Alkali.Dialect.Ops
import Alkali.Library.Decimal
import Alkali.Library.GreedyFill

/-!
# Mapping of a pipeline to compute units

`getMapping` hands out the compute units one by one, each to the first stage whose
latency is above the target for the units that it has. Then it looks for the stage
with the largest latency per unit, which divides by the number of units.
-/

namespace Alkali

open List GreedyFill Option

/-- The key of a lookup or an update. -/
def Operation.tableKey (o : Operation) : Option Value :=
  match o with
  | .plain ⟨_, .lookup _, _ :: key :: _, _⟩ => some key
  | .plain ⟨_, .update _, _ :: key :: _, _⟩ => some key
  | _ => none

/-- What `isTableClean` keeps of a key. -/
def keepKey : Option Value × Bool → Operation → Option Value × Bool
  | (key, unique), o =>
    match o.tableKey, key with
    | none, _ => (key, unique)
    | some k, none => (some k, unique)
    | some k, some k' => (some k', unique && k' == k)

/-- `isTableClean`: the lookups and updates have one key, and there are some. -/
def isTableClean (f : FuncOp) : Bool :=
  let (key, unique) := f.walk.foldl keepKey (none, true)
  unique && key.isSome

/-- A model of the target. -/
structure PerformanceModel where
  getLatency : FuncOp → Nat
  getCommunicationCost : List String → List String → Nat
  getLatencyTarget : Nat
  getComputeUnits : List String

/-- The operation accesses a table. -/
def Operation.accessesTable (o : Operation) : Bool :=
  match o.kind? with
  | some (.lookup _) | some (.update _) => true
  | _ => false

/-- `FPGAPerformanceModel` -/
def fpgaModel : PerformanceModel where
  getLatency f := if f.walk.any Operation.accessesTable then 3 else 1
  getCommunicationCost _ _ := 0
  getLatencyTarget := 1
  getComputeUnits := (List.range 128).map fun i => "vcu" ++ toString i

/-- The cycles that the Netronome model counts for an operation. -/
def Operation.cycles (o : Operation) : Nat :=
  match o.kind? with
  | some (.lookup _) | some (.update _) => 100
  | some (.compute "add") | some (.compute "sub") => 1
  | some (.compute "emit") | some (.compute "extract") => 1
  | _ => 0

/-- `NetronomePerformanceModel` -/
def netronomeModel : PerformanceModel where
  getLatency f := (f.walk.map Operation.cycles).sum
  getCommunicationCost _ _ := 0
  getLatencyTarget := 100
  getComputeUnits := ["cu0", "cu1", "cu2", "cu3", "cu4", "cu5", "cu6",
    "cu9", "cu10", "cu11", "cu12", "cu13", "cu14", "cu15",
    "cu16", "cu17", "cu18", "cu19", "cu20", "cu21", "cu22", "cu23"]

/-- The units of each stage. -/
abbrev UnitMap := Nat → List String

structure MappingResult where
  latency : Nat
  bottleneckIndex : Nat
  unitMap : UnitMap

namespace PerformanceModel

variable (M : PerformanceModel) (ops : List FuncOp) (unitMap : UnitMap) (idx : Nat)

def getLatencyForUnit : Nat :=
  let commLatency :=
    if idx < ops.length - 1 then M.getCommunicationCost (unitMap idx) (unitMap (idx + 1)) else 0
  ((ops[idx]?).map M.getLatency).getD 0 + commLatency

/-- A stage that gets the next unit. A stage whose tables cannot be partitioned has
one unit. -/
def needsUnit : Bool :=
  decide (M.getLatencyForUnit ops unitMap idx > M.getLatencyTarget * (unitMap idx).length) &&
    !(!((ops[idx]?).map isTableClean).getD false && decide (1 ≤ (unitMap idx).length))

/-- Hand out the units; stop if no stage needs one. -/
def assignUnits : List String → UnitMap → UnitMap
  | [], unitMap => unitMap
  | unit :: units, unitMap =>
    match (List.range ops.length).find? (M.needsUnit ops unitMap) with
    | some idx => assignUnits units (Function.update unitMap idx (unitMap idx ++ [unit]))
    | none => unitMap

/-- The latency of a stage per unit. -/
def perUnit : Nat :=
  M.getLatencyForUnit ops unitMap idx / (unitMap idx).length

/-- The search for the bottleneck; `none` if it divides by zero. -/
def findBottleneck (unitMap : UnitMap) : List Nat → Nat × Nat → Option (Nat × Nat)
  | [], best => some best
  | idx :: idxs, (targetIndex, maxLatency) =>
    if unitMap idx = [] then none
    else if M.perUnit ops unitMap idx > maxLatency then
      findBottleneck unitMap idxs (idx, M.perUnit ops unitMap idx)
    else findBottleneck unitMap idxs (targetIndex, maxLatency)

/-- `getMapping`; `none` if it divides by zero. -/
def getMapping : Option MappingResult :=
  let unitMap := M.assignUnits ops M.getComputeUnits fun _ => []
  (M.findBottleneck ops unitMap (List.range ops.length) (0, 0)).map fun best =>
    ⟨best.2, best.1, unitMap⟩

/-- The number of units that a stage is given if there are enough. -/
def demand (f : FuncOp) : Nat :=
  if M.getLatency f = 0 then 0
  else if isTableClean f then (M.getLatency f + M.getLatencyTarget - 1) / M.getLatencyTarget
  else 1

def demandAt : Nat := ((ops[idx]?).map M.demand).getD 0

/-- A mapping as it should be. -/
structure MappingOk (r : MappingResult) : Prop where
  assigned : ∀ i < ops.length, r.unitMap i ≠ []
  disjoint : ∀ i < ops.length, ∀ j < ops.length, i ≠ j → (r.unitMap i).Disjoint (r.unitMap j)
  single : ∀ i f, ops[i]? = some f → isTableClean f = false → (r.unitMap i).length ≤ 1
  bottleneck_lt : r.bottleneckIndex < ops.length
  bottleneck_max : ∀ i < ops.length,
    M.perUnit ops r.unitMap i ≤ M.perUnit ops r.unitMap r.bottleneckIndex

/-- What both models have in common. -/
structure Plain (M : PerformanceModel) : Prop where
  communicationCost : ∀ us vs, M.getCommunicationCost us vs = 0
  latencyTarget : 0 < M.getLatencyTarget
  computeUnits : M.getComputeUnits.Nodup

variable {M ops}

/-- A stage gets units up to its demand. -/
theorem Plain.needsUnit_iff (h : M.Plain) (unitMap : UnitMap) (idx : Nat) :
    M.needsUnit ops unitMap idx = true ↔ (unitMap idx).length < M.demandAt ops idx := by
  have hlatency : M.getLatencyForUnit ops unitMap idx = ((ops[idx]?).map M.getLatency).getD 0 := by
    simp [getLatencyForUnit, h.communicationCost]
  rw [needsUnit, demandAt, hlatency]
  cases hf : ops[idx]? with
  | none => simp
  | some f =>
    generalize (unitMap idx).length = n
    have htgt := h.latencyTarget
    have hceil : n < (M.getLatency f + M.getLatencyTarget - 1) / M.getLatencyTarget ↔
        M.getLatencyTarget * n < M.getLatency f := by
      rw [Nat.lt_iff_add_one_le, Nat.le_div_iff_mul_le htgt, Nat.add_mul, Nat.one_mul, Nat.mul_comm]
      omega
    by_cases hzero : M.getLatency f = 0
    · simp [demand, hzero]
    · cases hclean : isTableClean f with
      | true => simp [demand, hzero, hclean, hceil]
      | false =>
        cases n with
        | zero => simp [demand, hzero, hclean, Nat.pos_of_ne_zero hzero]
        | succ n => simp [demand, hzero, hclean]

/-- The assignment fills the stages in order. -/
theorem Plain.assignUnits_eq (h : M.Plain) (units : List String) (unitMap : UnitMap) :
    M.assignUnits ops units unitMap = fill ops.length (M.demandAt ops) units unitMap := by
  induction units generalizing unitMap with
  | nil => rfl
  | cons unit units ih =>
    have hneeds : M.needsUnit ops unitMap =
        fun i => decide ((unitMap i).length < M.demandAt ops i) := by
      funext i
      rw [Bool.eq_iff_iff, h.needsUnit_iff, decide_eq_true_iff]
    rw [assignUnits, fill, hneeds]
    cases (List.range ops.length).find? fun i =>
        decide ((unitMap i).length < M.demandAt ops i) with
    | none => rfl
    | some i => exact ih _

variable {i : Nat}

theorem demandAt_of_le (hi : ops.length ≤ i) : M.demandAt ops i = 0 := by
  simp [demandAt, hi]

theorem Plain.assignUnits_empty (h : M.Plain) (units : List String) :
    M.assignUnits ops units (fun _ => []) = segment (M.demandAt ops) units := by
  rw [h.assignUnits_eq, fill_empty fun i hi => demandAt_of_le hi]

theorem start_demandAt (hi : i ≤ ops.length) :
    start (M.demandAt ops) i = ((ops.take i).map M.demand).sum := by
  induction i with
  | zero => rfl
  | succ i ih =>
    rw [start, ih (by omega), take_add_one, map_append, sum_append,
      demandAt, getElem?_eq_getElem (by omega)]
    simp

variable {idxs : List Nat} {f : FuncOp} {r : MappingResult}

/-- The bottleneck is found if every stage has units. -/
theorem findBottleneck_isSome {unitMap : UnitMap} {best : Nat × Nat} :
    (M.findBottleneck ops unitMap idxs best).isSome ↔ ∀ i ∈ idxs, unitMap i ≠ [] := by
  induction idxs generalizing best with
  | nil => simp [findBottleneck]
  | cons idx idxs ih =>
    rw [findBottleneck]
    split
    · next h => simp [h]
    · next h => split <;> simp [ih, h]

/-- The bottleneck has the largest latency per unit of the stages that were seen. -/
theorem findBottleneck_spec {unitMap : UnitMap} {best r : Nat × Nat}
    (h : M.findBottleneck ops unitMap idxs best = some r) :
    best.2 ≤ r.2 ∧ (∀ i ∈ idxs, M.perUnit ops unitMap i ≤ r.2) ∧
      (r = best ∨ r.1 ∈ idxs ∧ M.perUnit ops unitMap r.1 = r.2) := by
  induction idxs generalizing best with
  | nil =>
    cases h
    simp
  | cons idx idxs ih =>
    rw [findBottleneck] at h
    split at h
    · cases h
    · split at h
      · next hgt =>
          obtain ⟨hle, hall, hr⟩ := ih h
          refine ⟨by omega, ?_, ?_⟩
          · simpa using ⟨hle, hall⟩
          · rcases hr with rfl | ⟨hmem, heq⟩
            · exact Or.inr ⟨by simp, rfl⟩
            · exact Or.inr ⟨by simp [hmem], heq⟩
      · next hgt =>
          obtain ⟨hle, hall, hr⟩ := ih h
          refine ⟨hle, ?_, ?_⟩
          · simpa using ⟨by omega, hall⟩
          · exact hr.imp id fun hr => ⟨by simp [hr.1], hr.2⟩

theorem Plain.demand_pos_iff (h : M.Plain) (f : FuncOp) : 0 < M.demand f ↔ 0 < M.getLatency f := by
  have htgt := h.latencyTarget
  rw [demand]
  split
  · omega
  · next hzero =>
      split
      · have := Nat.div_pos (a := M.getLatency f + M.getLatencyTarget - 1) (by omega) htgt
        omega
      · omega

theorem demandAt_le_one (hf : ops[i]? = some f) (hclean : isTableClean f = false) :
    M.demandAt ops i ≤ 1 := by
  rw [demandAt, hf, map_some, getD_some, demand, hclean]
  split
  · omega
  · simp

/-- The condition under which every stage gets a unit: every stage has some latency,
and the stages before the last one leave a unit for it. -/
def EnoughUnits (M : PerformanceModel) (ops : List FuncOp) : Prop :=
  (∀ f ∈ ops, 0 < M.getLatency f) ∧ (ops.dropLast.map M.demand).sum < M.getComputeUnits.length

theorem Plain.segments_ne_nil_iff (h : M.Plain) (hops : ops ≠ []) :
    (∀ i < ops.length, segment (M.demandAt ops) M.getComputeUnits i ≠ []) ↔ M.EnoughUnits ops := by
  have hlast : start (M.demandAt ops) (ops.length - 1) = (ops.dropLast.map M.demand).sum := by
    rw [start_demandAt (by omega), dropLast_eq_take]
  have hlen : 0 < ops.length := length_pos_iff.mpr hops
  simp only [segment_ne_nil_iff]
  constructor
  · intro hall
    refine ⟨fun f hf => ?_, hlast ▸ (hall (ops.length - 1) (by omega)).2⟩
    obtain ⟨i, hi, rfl⟩ := getElem_of_mem hf
    rw [← h.demand_pos_iff]
    simpa [demandAt, hi] using (hall i hi).1
  · rintro ⟨hpos, hunits⟩ i hi
    refine ⟨?_, ?_⟩
    · simpa [demandAt, hi, h.demand_pos_iff] using hpos _ (getElem_mem hi)
    · have hmono : start (M.demandAt ops) i ≤
          start (M.demandAt ops) (ops.length - 1) := start_mono (by omega)
      omega

/-- Every stage of a mapping has units. -/
theorem getMapping_assigned (h : M.getMapping ops = some r) :
    ∀ i < ops.length, r.unitMap i ≠ [] := by
  obtain ⟨best, hbest, rfl⟩ := map_eq_some_iff.mp h
  have hall := findBottleneck_isSome.mp (isSome_iff_exists.mpr ⟨best, hbest⟩)
  exact fun i hi => hall i (mem_range.mpr hi)

/-- `getMapping` divides by no zero if there are enough units. -/
theorem Plain.getMapping_isSome_iff (h : M.Plain) (hops : ops ≠ []) :
    (M.getMapping ops).isSome ↔ M.EnoughUnits ops := by
  rw [← h.segments_ne_nil_iff hops, ← h.assignUnits_empty, getMapping, isSome_map,
    findBottleneck_isSome]
  simp only [mem_range]

/-- The latency of a handler per unit if it is the only stage. -/
def latencyAlone (M : PerformanceModel) (f : FuncOp) : Nat :=
  M.getLatency f / min (M.demand f) M.getComputeUnits.length

theorem Plain.getMapping_singleton (h : M.Plain) (hr : M.getMapping [f] = some r) :
    r.latency = M.latencyAlone f := by
  obtain ⟨best, hbest, rfl⟩ := map_eq_some_iff.mp hr
  obtain ⟨-, hmax, hidx⟩ := findBottleneck_spec hbest
  have hle := hmax 0 (mem_range.mpr Nat.one_pos)
  have hunit : M.perUnit [f] (M.assignUnits [f] M.getComputeUnits fun _ => []) 0 =
      M.latencyAlone f := by
    rw [perUnit, h.assignUnits_empty, length_segment, latencyAlone]
    simp [getLatencyForUnit, demandAt, start]
  rw [← hunit]
  rcases hidx with rfl | ⟨hmem, heq⟩
  · exact (Nat.le_zero.mp hle).symm
  · have hzero : best.1 = 0 := by simpa using hmem
    rw [← heq, hzero]

/-- For a plain model, `getMapping` divides by no zero and returns a mapping as it
should be exactly if there are enough units. -/
theorem Plain.getMapping_ok_iff (h : M.Plain) (hops : ops ≠ []) :
    (∃ r, M.getMapping ops = some r ∧ M.MappingOk ops r) ↔ M.EnoughUnits ops := by
  rw [← h.getMapping_isSome_iff hops]
  constructor
  · rintro ⟨r, hr, -⟩
    exact isSome_iff_exists.mpr ⟨r, hr⟩
  · intro hfound
    obtain ⟨r, hr⟩ := isSome_iff_exists.mp hfound
    have hall := getMapping_assigned hr
    obtain ⟨best, hbest, rfl⟩ := map_eq_some_iff.mp hr
    obtain ⟨-, hmax, hidx⟩ := findBottleneck_spec hbest
    refine ⟨_, hr, hall, ?_, ?_, ?_, ?_⟩
    · intro i _ j _ hij
      rw [h.assignUnits_empty]
      exact segment_disjoint h.computeUnits hij
    · intro i f hf hclean
      rw [h.assignUnits_empty, length_segment]
      exact Nat.le_trans (Nat.min_le_left _ _) (demandAt_le_one hf hclean)
    · rcases hidx with rfl | ⟨hmem, -⟩
      · exact length_pos_iff.mpr hops
      · exact mem_range.mp hmem
    · intro i hi
      have hle := hmax i (mem_range.mpr hi)
      rcases hidx with rfl | ⟨-, heq⟩
      · exact Nat.le_trans hle (Nat.zero_le _)
      · exact Nat.le_trans hle (Nat.le_of_eq heq.symm)

end PerformanceModel

/-- The targets with a performance model. -/
inductive Platform
  | fpga
  | netronome
  deriving DecidableEq, Repr

def Platform.model : Platform → PerformanceModel
  | fpga => fpgaModel
  | netronome => netronomeModel

theorem fpga_computeUnits_nodup : fpgaModel.getComputeUnits.Nodup :=
  nodup_range.map fun _ _ h => Decimal.toString_inj.mp ((String.append_right_inj "vcu").mp h)

theorem Platform.plain (p : Platform) : p.model.Plain := by
  cases p with
  | fpga => exact ⟨fun _ _ => rfl, by decide, fpga_computeUnits_nodup⟩
  | netronome => exact ⟨fun _ _ => rfl, by decide, by decide⟩

/-- On both targets, `getMapping` of a pipeline succeeds, gives every stage a unit of
its own, replicates only stages with clean tables and finds the bottleneck, exactly
if there are enough units. -/
theorem Platform.getMapping_ok_iff_enoughUnits (p : Platform) {ops : List FuncOp}
    (hops : ops ≠ []) :
    (∃ r, p.model.getMapping ops = some r ∧ p.model.MappingOk ops r) ↔ p.model.EnoughUnits ops :=
  p.plain.getMapping_ok_iff hops

/-- A handler with the given operations. -/
def handlerOf (ops : List Operation) : FuncOp where
  name := "__handler_NET_RECV"
  blocks := [⟨[(0, .context), (1, .int 64)], ops, 100, .terminate⟩]

/-- Pass on an event. -/
def forwardOps : List Operation :=
  [.plain ⟨10, .init (.struct true [.context, .int 64] "NET_SEND"), [0, 1],
      [(2, .struct true [.context, .int 64] "NET_SEND")]⟩,
    .plain ⟨11, .ret, [2], []⟩]

/-- Count in a table, then pass on an event. -/
def countOps : List Operation :=
  [.plain ⟨20, .globalImport "flows", [], [(3, .table (.int 64) (.int 64) 16)]⟩,
    .plain ⟨21, .lookup "flows", [3, 1], [(4, .int 64)]⟩,
    .plain ⟨22, .compute "add", [4, 1], [(5, .int 64)]⟩,
    .plain ⟨23, .update "flows", [3, 1, 5], []⟩] ++ forwardOps

/-- Two stages that count are mapped to three units each. -/
theorem Platform.getMapping_ok_count :
    ∃ r, Platform.netronome.model.getMapping [handlerOf countOps, handlerOf countOps] = some r ∧
      Platform.netronome.model.MappingOk [handlerOf countOps, handlerOf countOps] r :=
  (Platform.netronome.getMapping_ok_iff_enoughUnits (by decide)).mpr ⟨by decide, by decide⟩

/-- A handler that only passes on an event gets no unit, and its latency per unit is
divided by zero. -/
theorem netronome_getMapping_forward :
    netronomeModel.assignUnits [handlerOf forwardOps] netronomeModel.getComputeUnits
        (fun _ => []) 0 = [] ∧
      netronomeModel.getMapping [handlerOf forwardOps] = none :=
  ⟨rfl, rfl⟩

end Alkali
