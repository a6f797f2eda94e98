import Alkali.Fpga.ArgDemux
import Mathlib.Order.Lattice.Nat

/-!
# Rounds of `arg_demux`

A round fires when all queues show an entry and the granted port can send. If one predicate of
the round is one, the grant is that of its port, and the round removes an entry from every
queue. If none is one, no port has a request, nothing fires, and the round stays forever.
-/

namespace Alkali.Fpga.BlockDemux

open Synchronous List Circuit Fifo ArgDemux

variable {n k : Nat} {α : Type}

/-! ## The signals -/

section Cycle

variable {s : BlockDemux n k α} {i : Inputs n k α} {arg : Fin k}

theorem isSome_predWord : (predWord s i).isSome ↔ ∀ rid, (predOut s i rid).isSome := by
  rw [predWord]
  split <;> rename_i h <;> simpa using h

theorem selected_predWord (h : ∀ rid, (predOut s i rid).isSome) (rid : Fin n) :
    selected (predWord s i) rid = true ↔ predOut s i rid = some true := by
  have hall : (List.finRange n).all (fun rid => (predOut s i rid).isSome) = true := by simpa using h
  obtain ⟨b, hb⟩ := Option.isSome_iff_exists.mp (h rid)
  simp [selected, predWord, hall, hb]

theorem localPred_last (hlast : arg.val + 1 = k) : localPred s i arg = predWord s i := if_pos hlast

theorem predOutReady_last (hlast : arg.val + 1 = k) :
    predOutReady s i = (s.args arg).predReady (i.args arg) (predWord s i) := by
  have hoth : ∀ arg' : Fin k, arg' ≠ arg → arg'.val + 1 ≠ k := by
    intro arg' hne hk
    exact hne (Fin.ext (by omega))
  rw [← localPred_last hlast, Bool.eq_iff_iff, predOutReady, all_eq_true]
  constructor
  · intro h
    simpa [hlast] using h arg (mem_finRange arg)
  · intro h arg' _
    by_cases heq : arg' = arg
    · subst heq
      simp [h]
    · simp [hoth arg' heq]

/-- All queues show an entry, and the granted port can send. -/
def Fires (arg : Fin k) (s : BlockDemux n k α) (i : Inputs n k α) : Prop :=
  (∀ rid, (predOut s i rid).isSome) ∧ (∀ rid, ((s.args arg).fifoOut (i.args arg) rid).isSome) ∧
    (i.args arg).muxReady ∧ (s.args arg).grant.isSome

/-- A port has the grant only for the round that waits. -/
def Granted (arg : Fin k) (s : BlockDemux n k α) : Prop :=
  ∀ rid, (s.args arg).grant = some rid → (s.preds rid).head? = some true ∧
    ∀ rid', s.preds rid' ≠ [] ∧ (s.args arg).inFifo rid' ≠ []

/-- Of the predicates that wait for the next round one is one. -/
def NextOneHot (s : BlockDemux n k α) : Prop :=
  (∀ rid, s.preds rid ≠ []) → ∃ rid, ∀ rid', (s.preds rid').head? = some true ↔ rid' = rid

theorem everyoneIsValid_iff : (s.args arg).everyoneIsValid (i.args arg) (predWord s i) = true ↔
    (∀ rid, (predOut s i rid).isSome) ∧ ∀ rid, ((s.args arg).fifoOut (i.args arg) rid).isSome := by
  rw [everyoneIsValid, Bool.and_eq_true, isSome_predWord, and_comm]
  simp

/-- A port requests the grant only for the round that waits. -/
theorem of_request {rid : Fin n} (h : (s.args arg).request (i.args arg) (predWord s i) rid = true) :
    predOut s i rid = some true ∧ (∀ rid, (predOut s i rid).isSome) ∧
      ∀ rid, ((s.args arg).fifoOut (i.args arg) rid).isSome := by
  simp only [request, groupedValid, Bool.and_eq_true] at h
  have hvalid := everyoneIsValid_iff.mp h.1.1
  exact ⟨(selected_predWord hvalid.1 rid).mp h.1.2, hvalid⟩

/-- If nothing fires, no queue is read. -/
theorem signals_of_not_fires (hfires : ¬ Fires arg s i) :
    (∀ rid, (s.args arg).fifoReady (i.args arg) (predWord s i) rid = false) ∧
      (s.args arg).predReady (i.args arg) (predWord s i) = false ∧
      (s.args arg).taken (i.args arg) (predWord s i) = none ∧
      (s.args arg).acknowledge (i.args arg) (predWord s i) = false := by
  by_cases hvalid : (s.args arg).everyoneIsValid (i.args arg) (predWord s i) = true
  · have hidle : ∀ rid, (s.args arg).groupedReady (i.args arg) rid = false := by
      intro rid
      obtain ⟨hpreds, hvals⟩ := everyoneIsValid_iff.mp hvalid
      rw [groupedReady, Bool.and_eq_false_iff]
      by_cases hrdy : (i.args arg).muxReady = true
      · refine Or.inr (beq_eq_false_iff_ne.mpr fun hgrant => hfires ?_)
        exact ⟨hpreds, hvals, hrdy, by simp [hgrant]⟩
      · exact Or.inl (Bool.eq_false_iff.mpr hrdy)
    have hgrant : ∀ rid, (s.args arg).grant = some rid → (i.args arg).muxReady = false := by
      intro rid hgrant
      simpa [groupedReady, hgrant] using hidle rid
    refine ⟨fun rid => ?_, ?_, ?_, ?_⟩
    · simp [fifoReady, hidle]
    · simp [predReady, hidle]
    · cases hg : (s.args arg).grant with
      | none => simp [taken, hg]
      | some rid => simp [taken, hg, hgrant rid hg]
    · simp [acknowledge, hidle]
  · rw [Bool.not_eq_true] at hvalid
    simp [fifoReady, predReady, taken, acknowledge, groupedValid, hvalid]

/-- If something fires, it is the round that waits: every queue is read, and the value of the
granted port is taken. -/
theorem signals_of_fires (hgrd : Granted arg s) (hnext : NextOneHot s)
    (hfires : Fires arg s i) : ∃ rid, (s.args arg).grant = some rid ∧
      (∀ rid', predOut s i rid' = some true ↔ rid' = rid) ∧
      (∀ rid', (s.args arg).fifoReady (i.args arg) (predWord s i) rid' = true) ∧
      (s.args arg).predReady (i.args arg) (predWord s i) = true ∧
      (s.args arg).taken (i.args arg) (predWord s i) = (s.args arg).fifoOut (i.args arg) rid ∧
      (s.args arg).grantNext (i.args arg) (predWord s i) = none := by
  obtain ⟨hpreds, hvals, hrdy, hgrant⟩ := hfires
  obtain ⟨rid, hrid⟩ := Option.isSome_iff_exists.mp hgrant
  have hvalid := everyoneIsValid_iff.mpr ⟨hpreds, hvals⟩
  have hone : ∀ rid', predOut s i rid' = some true ↔ rid' = rid := by
    obtain ⟨g, hg⟩ := hnext fun rid' => ne_nil_of_front (hpreds rid')
    have hsame : rid = g := (hg rid).mp (hgrd rid hrid).1
    intro rid'
    obtain ⟨b, hb⟩ := Option.isSome_iff_exists.mp (hpreds rid')
    rw [hsame, ← hg rid', hb, front_eq_some hb, head?_cons]
  have hsel : ∀ rid', selected (predWord s i) rid' = decide (rid' = rid) := by
    intro rid'
    rw [Bool.eq_iff_iff, selected_predWord hpreds, hone, decide_eq_true_iff]
  have hgrouped : ∀ rid', (s.args arg).groupedReady (i.args arg) rid' = decide (rid' = rid) := by
    intro rid'
    rw [groupedReady, hrdy, hrid, Bool.true_and, Bool.eq_iff_iff, beq_iff_eq,
      Option.some_inj, decide_eq_true_iff]
    exact eq_comm
  refine ⟨rid, hrid, hone, fun rid' => ?_, ?_, ?_, ?_⟩
  · by_cases heq : rid' = rid <;>
      simp [fifoReady, hvalid, hsel, hgrouped, heq]
  · simp [predReady, groupedValid, hvalid, hsel, hgrouped]
  · simp [taken, groupedValid, hrid, hvalid, hsel, hrdy]
  · have hack : (s.args arg).acknowledge (i.args arg) (predWord s i) = true := by
      simp [acknowledge, groupedValid, hrid, hvalid, hsel, hgrouped]
    rw [grantNext, hack, Bool.not_true, Bool.and_false, if_neg Bool.false_ne_true, find?_eq_none]
    intro rid' _
    rw [request, groupedValid, hvalid, hsel, hrid]
    by_cases heq : rid' = rid <;> simp [heq]

end Cycle

/-! ## Rounds -/

section Rounds

variable {preds : Fin n → List Bool} {values : Fin n → List α} {rounds : Nat}

/-- A round that is over keeps its value. -/
theorem roundValue_append (hpreds : ∀ rid, (preds rid).length = rounds)
    (hvals : ∀ rid, (values rid).length = rounds) (preds' : Fin n → List Bool)
    (values' : Fin n → List α) {round : Nat} (hround : round < rounds) :
    roundValue (fun rid => preds rid ++ preds' rid) (fun rid => values rid ++ values' rid) round =
      roundValue preds values round := by
  have hone : ∀ rid, (preds rid ++ preds' rid)[round]? = (preds rid)[round]? := fun rid =>
    getElem?_append_left (by rw [hpreds]; exact hround)
  have htwo : ∀ rid, (values rid ++ values' rid)[round]? = (values rid)[round]? := fun rid =>
    getElem?_append_left (by rw [hvals]; exact hround)
  simp only [roundValue, hone, htwo]

theorem findSome?_ite {β : Type} [DecidableEq β] (f : β → Option α) {x : β} {xs : List β}
    (hx : x ∈ xs) : (xs.findSome? fun y => if y = x then f y else none) = f x := by
  cases hf : f x with
  | none =>
    rw [findSome?_eq_none_iff]
    intro y _
    split
    · rename_i heq
      rw [heq, hf]
    · rfl
  | some v =>
    induction xs with
    | nil => cases hx
    | cons y xs ih =>
      rw [findSome?_cons]
      by_cases heq : y = x
      · rw [if_pos heq, heq, hf]
      · rw [if_neg heq]
        exact ih ((mem_cons.mp hx).resolve_left (Ne.symm heq))

/-- The round that comes next has the value of the only edge whose predicate is one. -/
theorem roundValue_concat (hpreds : ∀ rid, (preds rid).length = rounds)
    (hvals : ∀ rid, (values rid).length = rounds) (news : Fin n → Option α)
    {bits : Fin n → Option Bool} {rid : Fin n}
    (hbits : ∀ rid', bits rid' = some true ↔ rid' = rid) :
    roundValue (fun rid => preds rid ++ (bits rid).toList)
      (fun rid => values rid ++ (news rid).toList) rounds = news rid := by
  have hlast : ∀ {β : Type} {l : List β} (o : Option β), l.length = rounds →
      (l ++ o.toList)[rounds]? = o := by
    intro β l o hl
    subst hl
    cases o <;> simp
  simp only [roundValue, hlast _ (hpreds _), hlast _ (hvals _), hbits]
  exact findSome?_ite news (mem_finRange rid)

end Rounds

/-! ## Runs -/

section Run

variable {h : List (Inputs n k α × (Fin k → Option α))} {s : BlockDemux n k α}
  {i : Inputs n k α} {arg : Fin k}

/-- What has been removed from the queues in the rounds that are over. -/
structure Passed (arg : Fin k) (h : List (Inputs n k α × (Fin k → Option α)))
    (s : BlockDemux n k α) (rounds : Nat) (preds : Fin n → List Bool)
    (values : Fin n → List α) : Prop where
  lengthPreds : ∀ rid, (preds rid).length = rounds
  lengthValues : ∀ rid, (values rid).length = rounds
  predsOf : ∀ rid, predsOf h rid = preds rid ++ s.preds rid
  valuesOf : ∀ rid, valuesOf h arg rid = values rid ++ (s.args arg).inFifo rid
  sent : sentOf h arg ++ (s.args arg).out = (List.range rounds).filterMap (roundValue preds values)

/-- The invariant of a run. -/
structure Inv (arg : Fin k) (h : List (Inputs n k α × (Fin k → Option α)))
    (s : BlockDemux n k α) : Prop where
  passed : ∃ rounds preds values, Passed arg h s rounds preds values
  granted : Granted arg s

theorem Inv.aligned (hinv : Inv arg h s) : Aligned h arg s := by
  obtain ⟨rounds, preds, values, hpassed⟩ := hinv.passed
  refine ⟨rounds, fun rid => ?_, fun rid => ?_, ?_⟩
  · rw [hpassed.predsOf, length_append, hpassed.lengthPreds]
  · rw [hpassed.valuesOf, length_append, hpassed.lengthValues]
  · rw [hpassed.sent, funext hpassed.predsOf, funext hpassed.valuesOf]
    refine filterMap_congr fun round hround => ?_
    exact (roundValue_append hpassed.lengthPreds hpassed.lengthValues _ _
      (mem_range.mp hround)).symm

theorem sentOf_concat : sentOf (h ++ [(i, (blockDemux n k α).output s i)]) arg =
    sentOf h arg ++ (popped (i.args arg).outShows (i.args arg).outReady
      (s.args arg).out).toList :=
  transfers_concat _ _ _ _

variable {rounds : Nat} {preds : Fin n → List Bool} {values : Fin n → List α}

theorem Passed.nextOneHot (hpassed : Passed arg h s rounds preds values) (hone : OneHot h) :
    NextOneHot s := by
  intro hne
  have hget : ∀ rid, (BlockDemux.predsOf h rid)[rounds]? = (s.preds rid).head? := by
    intro rid
    rw [hpassed.predsOf, getElem?_append_right (hpassed.lengthPreds rid).le,
      hpassed.lengthPreds, Nat.sub_self, head?_eq_getElem?]
  obtain ⟨rid, hrid⟩ := hone rounds fun rid => by
    rw [hpassed.predsOf, length_append, hpassed.lengthPreds]
    exact Nat.lt_add_of_pos_right (length_pos_iff.mpr (hne rid))
  exact ⟨rid, fun rid' => hget rid' ▸ hrid rid'⟩

theorem oneHot_of_concat {x : Inputs n k α × (Fin k → Option α)} (hone : OneHot (h ++ [x])) :
    OneHot h := by
  have hconcat : ∀ rid, predsOf (h ++ [x]) rid = predsOf h rid ++ (x.1.predIn rid).pushed.toList :=
    fun rid => transfers_concat _ _ _ _
  intro round hround
  obtain ⟨rid, hrid⟩ := hone round fun rid => by
    rw [hconcat, length_append]
    exact Nat.lt_add_right _ (hround rid)
  refine ⟨rid, fun rid' => ?_⟩
  rw [← hrid rid', hconcat, getElem?_append_left (hround rid')]

theorem inv_init : Inv arg [] (blockDemux n k α).init := by
  refine ⟨⟨0, fun _ => [], fun _ => [], ?_⟩, ?_⟩
  · exact ⟨fun _ => rfl, fun _ => rfl, fun _ => rfl, fun _ => rfl, rfl⟩
  · intro rid hgrant
    cases hgrant

section Last

variable (hlast : arg.val + 1 = k)
include hlast

theorem next_args_last : (next s i).args arg = (s.args arg).next (i.args arg) (predWord s i) := by
  change (s.args arg).next (i.args arg) (localPred s i arg) = _
  rw [localPred_last hlast]

theorem next_preds_last (rid : Fin n) : (next s i).preds rid = Fifo.next (i.predIn rid).shows
      (i.predReady && (s.args arg).predReady (i.args arg) (predWord s i) && (predWord s i).isSome)
      (s.preds rid) (i.predIn rid).pushed := by
  rw [← predOutReady_last hlast]
  rfl

theorem next_inFifo_last (rid : Fin n) :
    ((next s i).args arg).inFifo rid = Fifo.next ((i.args arg).demuxIn rid).shows
      ((s.args arg).fifoReady (i.args arg) (predWord s i) rid) ((s.args arg).inFifo rid)
      ((i.args arg).demuxIn rid).pushed := by
  rw [next_args_last hlast]
  rfl

theorem next_out_last :
    ((next s i).args arg).out = Fifo.next (i.args arg).outShows (i.args arg).outReady
      (s.args arg).out ((s.args arg).taken (i.args arg) (predWord s i)) := by
  rw [next_args_last hlast]
  rfl

theorem next_grant_last : ((next s i).args arg).grant =
    (s.args arg).grantNext (i.args arg) (predWord s i) := by
  rw [next_args_last hlast]
  rfl

/-- A cycle in which no round is taken. -/
theorem next_of_not_fires (hfires : ¬ Fires arg s i) (rid : Fin n) :
    (next s i).preds rid = s.preds rid ++ (i.predIn rid).pushed.toList ∧
      ((next s i).args arg).inFifo rid =
        (s.args arg).inFifo rid ++ ((i.args arg).demuxIn rid).pushed.toList := by
  obtain ⟨hfifo, hpred, -, -⟩ := signals_of_not_fires hfires
  rw [next_preds_last hlast, next_inFifo_last hlast, hfifo, hpred, Bool.and_false, Bool.false_and]
  exact ⟨rfl, rfl⟩

section

variable (hpassed : Passed arg h s rounds preds values)
include hpassed

theorem Passed.step_idle (hfires : ¬ Fires arg s i) :
    Passed arg (h ++ [(i, (blockDemux n k α).output s i)]) (next s i) rounds preds values := by
  obtain ⟨-, -, htaken, -⟩ := signals_of_not_fires hfires
  refine ⟨hpassed.lengthPreds, hpassed.lengthValues, fun rid => ?_, fun rid => ?_, ?_⟩
  · rw [(next_of_not_fires hlast hfires rid).1, ← append_assoc, ← hpassed.predsOf]
    exact transfers_concat _ _ _ _
  · rw [(next_of_not_fires hlast hfires rid).2, ← append_assoc, ← hpassed.valuesOf]
    exact transfers_concat _ _ _ _
  · rw [sentOf_concat, next_out_last hlast, htaken, append_assoc,
      popped_append_next, Option.toList_none, append_nil, hpassed.sent]

/-- A cycle in which a round is taken. -/
theorem Passed.step_fire (hgrd : Granted arg s) (hnext : NextOneHot s)
    (hreader : ReaderReady arg s i) (hfires : Fires arg s i) :
    Passed arg (h ++ [(i, (blockDemux n k α).output s i)]) (next s i) (rounds + 1)
      (fun rid => preds rid ++ (predOut s i rid).toList)
      (fun rid => values rid ++ ((s.args arg).fifoOut (i.args arg) rid).toList) := by
  obtain ⟨rid, -, hone, hfifo, hpred, htaken, -⟩ := signals_of_fires hgrd hnext hfires
  have hrdy : i.predReady = true := hreader hfires.2.2.2 hfires.2.2.1
  have hword : (predWord s i).isSome = true := isSome_predWord.mpr hfires.1
  have hlen : ∀ {β : Type} {o : Option β}, o.isSome → o.toList.length = 1 := by
    intro β o ho
    obtain ⟨x, rfl⟩ := Option.isSome_iff_exists.mp ho
    rfl
  refine ⟨fun rid => ?_, fun rid => ?_, fun rid => ?_, fun rid => ?_, ?_⟩
  · rw [length_append, hpassed.lengthPreds, hlen (hfires.1 rid)]
  · rw [length_append, hpassed.lengthValues, hlen (hfires.2.1 rid)]
  · rw [next_preds_last hlast, hrdy, hpred, hword]
    exact (transfers_concat _ _ _ _).trans
      (conserve (hpassed.predsOf rid) _ true _)
  · rw [next_inFifo_last hlast, hfifo]
    exact (transfers_concat _ _ _ _).trans
      (conserve (hpassed.valuesOf rid) _ true _)
  · have hold : (List.range rounds).filterMap (roundValue
        (fun rid => preds rid ++ (predOut s i rid).toList)
        fun rid => values rid ++ ((s.args arg).fifoOut (i.args arg) rid).toList) =
        (List.range rounds).filterMap (roundValue preds values) :=
      filterMap_congr fun round hround => roundValue_append hpassed.lengthPreds
        hpassed.lengthValues _ _ (mem_range.mp hround)
    have hnew := roundValue_concat hpassed.lengthPreds hpassed.lengthValues
      ((s.args arg).fifoOut (i.args arg)) hone
    rw [sentOf_concat, next_out_last hlast, htaken, append_assoc,
      popped_append_next, ← append_assoc, hpassed.sent, range_succ,
      filterMap_append, hold]
    obtain ⟨v, hv⟩ := Option.isSome_iff_exists.mp (hfires.2.1 rid)
    rw [hv] at hnew ⊢
    simp [hnew]

end

/-- A grant is given for the round that waits, and held until the round is taken. -/
theorem granted_next (hgrd : Granted arg s) (hnext : NextOneHot s) : Granted arg (next s i) := by
  intro rid hgrant
  rw [next_grant_last hlast] at hgrant
  by_cases hfires : Fires arg s i
  · obtain ⟨_, -, -, -, -, -, hnone⟩ := signals_of_fires hgrd hnext hfires
    rw [hnone] at hgrant
    cases hgrant
  · obtain ⟨-, -, -, hack⟩ := signals_of_not_fires hfires
    -- the round that the grant is for
    have hround : (s.preds rid).head? = some true ∧
        ∀ rid', s.preds rid' ≠ [] ∧ (s.args arg).inFifo rid' ≠ [] := by
      cases hold : (s.args arg).grant with
      | some g =>
        simp only [grantNext, hold, hack, Option.isSome_some, Bool.not_false,
          Bool.and_self, if_true, Option.some_inj] at hgrant
        exact hgrd rid (hgrant ▸ hold)
      | none =>
        simp only [grantNext, hold, Option.isSome_none, Bool.false_and,
          Bool.false_eq_true, if_false] at hgrant
        obtain ⟨htrue, hpreds, hvals⟩ := of_request (find?_some hgrant)
        exact ⟨by rw [front_eq_some htrue, head?_cons],
          fun rid' => ⟨ne_nil_of_front (hpreds rid'), ne_nil_of_front (hvals rid')⟩⟩
    obtain ⟨hhead, hne⟩ := hround
    have hgrow := next_of_not_fires hlast hfires
    refine ⟨?_, fun rid' => ⟨?_, ?_⟩⟩
    · rw [(hgrow rid).1, head?_append_of_ne_nil _ (hne rid).1, hhead]
    · rw [(hgrow rid').1]
      exact append_ne_nil_of_left_ne_nil (hne rid').1 _
    · rw [(hgrow rid').2]
      exact append_ne_nil_of_left_ne_nil (hne rid').2 _

theorem inv_step (hinv : Inv arg h s) (hone : OneHot h) (hreader : ReaderReady arg s i) :
    Inv arg (h ++ [(i, (blockDemux n k α).output s i)]) (next s i) := by
  obtain ⟨rounds, preds, values, hpassed⟩ := hinv.passed
  have hnext := hpassed.nextOneHot hone
  refine ⟨?_, granted_next hlast hinv.granted hnext⟩
  by_cases hfires : Fires arg s i
  · exact ⟨_, _, _, hpassed.step_fire hlast hinv.granted hnext hreader hfires⟩
  · exact ⟨_, _, _, hpassed.step_idle hlast hfires⟩

theorem inv_run {inputs : List (Inputs n k α)} (hone : OneHot ((blockDemux n k α).trace inputs))
    (hreader : (blockDemux n k α).Along (ReaderReady arg) inputs) :
    Inv arg ((blockDemux n k α).trace inputs) ((blockDemux n k α).run inputs) := by
  refine Circuit.invariant (P := fun h s => OneHot h → Inv arg h s) (fun _ => inv_init) ?_
    hreader hone
  intro h s i hinv hrdy honeNext
  have hone := oneHot_of_concat honeNext
  exact inv_step hlast (hinv hone) hone hrdy

end Last

end Run

/-! ## Progress -/

section Progress

variable {h : List (Inputs (n + 1) k α × (Fin k → Option α))} {s : BlockDemux (n + 1) k α}
  {i : Inputs (n + 1) k α} {arg : Fin k}

/-- The rounds for which every edge has its predicate and its value. -/
def available (arg : Fin k) (s : BlockDemux (n + 1) k α) : Nat :=
  Finset.univ.inf' Finset.univ_nonempty fun rid =>
    min (s.preds rid).length ((s.args arg).inFifo rid).length

theorem available_pos : 0 < available arg s ↔
    ∀ rid, s.preds rid ≠ [] ∧ (s.args arg).inFifo rid ≠ [] := by
  simp [available, Finset.lt_inf'_iff, length_pos_iff]

/-- A round takes at most three cycles: one for the grant, one to send it and one to leave. -/
def rank (arg : Fin k) (s : BlockDemux (n + 1) k α) : Nat :=
  3 * available arg s - (if (s.args arg).grant.isSome then 1 else 0) + (s.args arg).out.length

theorem finished_of_rank (hrank : rank arg s = 0) : Finished arg s := by
  rw [rank, Nat.add_eq_zero_iff, length_eq_zero_iff] at hrank
  refine ⟨?_, hrank.2⟩
  have hzero : ¬ 0 < available arg s := by
    have hle : (if (s.args arg).grant.isSome then 1 else 0) ≤ 1 := by split <;> omega
    omega
  rw [available_pos, not_forall] at hzero
  obtain ⟨rid, hrid⟩ := hzero
  exact ⟨rid, by tauto⟩

section

variable (hlast : arg.val + 1 = k) (hquiet : Quiet arg i)
include hlast hquiet

theorem length_out_next : ((next s i).args arg).out.length = (s.args arg).out.length - 1 +
      ((s.args arg).taken (i.args arg) (predWord s i)).toList.length := by
  obtain ⟨-, -, hshows, hrdy⟩ := hquiet.ready
  rw [next_out_last hlast, hshows, hrdy, length_next_of_ready]

/-- A round that fires leaves one round less. -/
theorem available_next_of_fires
    (hgrd : Granted arg s) (hnext : NextOneHot s) (hfires : Fires arg s i) :
    available arg (next s i) ≤ available arg s - 1 := by
  obtain ⟨_, -, -, hfifo, hpred, -, -⟩ := signals_of_fires hgrd hnext hfires
  have hword : (predWord s i).isSome = true := isSome_predWord.mpr hfires.1
  obtain ⟨rid, -, hmin⟩ := Finset.exists_mem_eq_inf' Finset.univ_nonempty fun rid =>
    min (s.preds rid).length ((s.args arg).inFifo rid).length
  have hle : available arg (next s i) ≤
      min ((next s i).preds rid).length (((next s i).args arg).inFifo rid).length :=
    Finset.inf'_le _ (Finset.mem_univ rid)
  rw [next_preds_last hlast, next_inFifo_last hlast, hfifo, hpred, hword, hquiet.ready.1,
    (hquiet.preds rid).1, (hquiet.preds rid).2, (hquiet.values rid).1, (hquiet.values rid).2,
    Bool.and_self, Bool.and_self, length_next_of_ready, length_next_of_ready] at hle
  have hmin : available arg s = min (s.preds rid).length ((s.args arg).inFifo rid).length := hmin
  simp only [Option.toList_none, length_nil] at hle
  omega

theorem available_next_of_not_fires
    (hfires : ¬ Fires arg s i) : available arg (next s i) = available arg s := by
  have hpreds : ∀ rid, (next s i).preds rid = s.preds rid := by
    intro rid
    rw [(next_of_not_fires hlast hfires rid).1, (hquiet.preds rid).1, Option.toList_none,
      append_nil]
  have hvals : ∀ rid, ((next s i).args arg).inFifo rid = (s.args arg).inFifo rid := by
    intro rid
    rw [(next_of_not_fires hlast hfires rid).2, (hquiet.values rid).1, Option.toList_none,
      append_nil]
  simp only [available, hpreds, hvals]

omit hlast in
/-- Queues that are not empty show an entry. -/
theorem front_of_quiet (hne : ∀ rid, s.preds rid ≠ [] ∧ (s.args arg).inFifo rid ≠ []) :
    (∀ rid, (predOut s i rid).isSome) ∧ ∀ rid, ((s.args arg).fifoOut (i.args arg) rid).isSome := by
  refine ⟨fun rid => ?_, fun rid => ?_⟩
  · rw [predOut, (hquiet.preds rid).2, front, if_pos rfl, isSome_head?]
    simpa using (hne rid).1
  · rw [fifoOut, (hquiet.values rid).2, front, if_pos rfl, isSome_head?]
    simpa using (hne rid).2

/-- A round that waits gets its grant. -/
theorem grant_next_of_available (hnext : NextOneHot s) (hgrant : (s.args arg).grant = none)
    (hne : ∀ rid, s.preds rid ≠ [] ∧ (s.args arg).inFifo rid ≠ []) :
    ((next s i).args arg).grant.isSome := by
  obtain ⟨hpreds, hvals⟩ := front_of_quiet hquiet hne
  obtain ⟨rid, hrid⟩ := hnext fun rid => (hne rid).1
  have htrue : predOut s i rid = some true := by
    rw [predOut, (hquiet.preds rid).2, front, if_pos rfl]
    exact (hrid rid).mpr rfl
  rw [next_grant_last hlast, grantNext, hgrant, Option.isSome_none, Bool.false_and,
    if_neg Bool.false_ne_true, find?_isSome]
  refine ⟨rid, hquiet.order rid, ?_⟩
  rw [request, groupedValid, everyoneIsValid_iff.mpr ⟨hpreds, hvals⟩,
    (selected_predWord hpreds rid).mpr htrue, hgrant]
  rfl

theorem rank_next (hgrd : Granted arg s) (hnext : NextOneHot s) :
    rank arg (next s i) ≤ rank arg s - 1 := by
  have hout := length_out_next (s := s) hlast hquiet
  by_cases hfires : Fires arg s i
  · obtain ⟨rid, hrid, -, -, -, -, hnone⟩ := signals_of_fires hgrd hnext hfires
    have hless := available_next_of_fires hlast hquiet hgrd hnext hfires
    have hpos := available_pos.mpr (hgrd rid hrid).2
    have htaken := ((s.args arg).taken (i.args arg) (predWord s i)).length_toList_le
    rw [rank, rank, next_grant_last hlast, hnone, hrid, Option.isSome_none, Option.isSome_some,
      if_neg Bool.false_ne_true, if_pos rfl]
    omega
  · obtain ⟨-, -, htaken, -⟩ := signals_of_not_fires hfires
    rw [htaken, Option.toList_none, length_nil] at hout
    have hgrant : (s.args arg).grant = none := by
      obtain hnone | ⟨rid, hrid⟩ := Option.eq_none_or_eq_some (s.args arg).grant
      · exact hnone
      · obtain ⟨hpreds, hvals⟩ := front_of_quiet hquiet (hgrd rid hrid).2
        exact absurd ⟨hpreds, hvals, hquiet.ready.2.1, by simp [hrid]⟩ hfires
    rw [rank, rank, available_next_of_not_fires hlast hquiet hfires, hgrant, Option.isSome_none,
      if_neg Bool.false_ne_true]
    by_cases hpos : 0 < available arg s
    · rw [grant_next_of_available hlast hquiet hnext hgrant (available_pos.mp hpos), if_pos rfl]
      omega
    · omega

end

end Progress

/-- The last argument of a block. If of the predicates of every round one is one, and if the
reader of the block's predicate is ready in time, the rounds stay aligned, and every round whose
predicates and values are there is over after some cycles. -/
theorem arg_demux_rounds {arg : Fin k} (hlast : arg.val + 1 = k)
    {inputs : List (Inputs (n + 1) k α)}
    (hone : OneHot ((blockDemux (n + 1) k α).trace inputs))
    (hreader : (blockDemux (n + 1) k α).Along (ReaderReady arg) inputs) :
    let c := blockDemux (n + 1) k α
    Aligned (c.trace inputs) arg (c.run inputs) ∧
      ∃ m, ∀ rest : List (Inputs (n + 1) k α), (∀ i ∈ rest, Quiet arg i) → m ≤ rest.length →
        Aligned (c.trace (inputs ++ rest)) arg (c.run (inputs ++ rest)) ∧
          Finished arg (c.run (inputs ++ rest)) := by
  intro c
  refine ⟨(inv_run hlast hone hreader).aligned, rank arg (c.run inputs), ?_⟩
  intro rest hrest hlen
  have hstep : ∀ is i, OneHot (c.trace is) ∧ c.Along (ReaderReady arg) is → Quiet arg i →
      (OneHot (c.trace (is ++ [i])) ∧ c.Along (ReaderReady arg) (is ++ [i])) ∧
        rank arg (c.next (c.run is) i) ≤ rank arg (c.run is) - 1 := by
    rintro is i ⟨hone, hreader⟩ hquiet
    have hinv := inv_run hlast hone hreader
    obtain ⟨_, _, _, hpassed⟩ := hinv.passed
    refine ⟨⟨?_, along_concat.mpr ⟨hreader, fun _ _ => hquiet.ready.1⟩⟩,
      rank_next hlast hquiet hinv.granted (hpassed.nextOneHot hone)⟩
    have hsame : ∀ rid, predsOf (c.trace (is ++ [i])) rid = predsOf (c.trace is) rid := by
      intro rid
      rw [predsOf, trace_concat, transfers_concat, (hquiet.preds rid).1]
      exact append_nil _
    intro round hround
    simp only [hsame] at hround ⊢
    exact hone round hround
  obtain ⟨⟨hone', hreader'⟩, hrank⟩ := rank_append (rank arg) hstep ⟨hone, hreader⟩ hrest
  refine ⟨(inv_run hlast hone' hreader').aligned, finished_of_rank ?_⟩
  exact Nat.eq_zero_of_le_zero (hrank.trans (Nat.sub_eq_zero_of_le hlen).le)

/-! ## When it does not work -/

/-- A round without a one waits. -/
structure Stuck (arg : Fin k) (s : BlockDemux n k α) : Prop where
  grant : (s.args arg).grant = none
  preds : ∀ rid, (s.preds rid).head? = some false
  values : ∀ rid, (s.args arg).inFifo rid ≠ []

section Failures

variable {s : BlockDemux n k α} {i : Inputs n k α} {arg : Fin k}

/-- A round without a one is never taken. -/
theorem Stuck.step (h : Stuck arg s) (hlast : arg.val + 1 = k) : Stuck arg (next s i) := by
  have hfires : ¬ Fires arg s i := fun hfires => by simpa [h.grant] using hfires.2.2.2
  have hgrow := next_of_not_fires hlast hfires
  have hne : ∀ rid, s.preds rid ≠ [] := fun rid hnil => by simpa [hnil] using h.preds rid
  refine ⟨?_, fun rid => ?_, fun rid => ?_⟩
  · rw [next_grant_last hlast, grantNext, h.grant, Option.isSome_none, Bool.false_and,
      if_neg Bool.false_ne_true, find?_eq_none]
    intro rid _ hrequest
    have hfalse := h.preds rid
    rw [front_eq_some (of_request hrequest).1, head?_cons] at hfalse
    cases hfalse
  · rw [(hgrow rid).1, head?_append_of_ne_nil _ (hne rid), h.preds]
  · rw [(hgrow rid).2]
    exact append_ne_nil_of_left_ne_nil (h.values rid) _

theorem Stuck.run {inputs : List (Inputs n k α)}
    (h : Stuck arg ((blockDemux n k α).run inputs)) (hlast : arg.val + 1 = k)
    (rest : List (Inputs n k α)) : Stuck arg ((blockDemux n k α).run (inputs ++ rest)) := by
  induction rest using List.reverseRecOn with
  | nil => rwa [append_nil]
  | append_singleton rest i ih =>
    rw [← append_assoc, run_concat]
    exact ih.step hlast

end Failures

/-! ## Two edges and one argument -/

/-- The entries of a round come in over two edges, and whatever can move moves. -/
def twoEdges (preds : Fin 2 → Option Bool) (values : Fin 2 → Option Nat) : Inputs 2 1 Nat where
  predIn rid := ⟨preds rid, true, true⟩
  predReady := true
  args _ := ⟨fun rid => ⟨values rid, true, true⟩, [0, 1], true, true, true⟩

theorem arg_demux_rounds_two_edges : let c := blockDemux 2 1 Nat
    let inputs := [twoEdges (fun rid => some (rid == 0)) fun rid => some rid.val]
    Aligned (c.trace inputs) 0 (c.run inputs) ∧ ∃ m, ∀ rest : List (Inputs 2 1 Nat),
      (∀ i ∈ rest, Quiet 0 i) → m ≤ rest.length →
        Aligned (c.trace (inputs ++ rest)) 0 (c.run (inputs ++ rest)) ∧
          Finished 0 (c.run (inputs ++ rest)) := by
  refine arg_demux_rounds rfl ?_ ?_
  · intro round hround
    obtain rfl : round = 0 := Nat.lt_one_iff.mp (hround 0)
    exact ⟨0, by decide⟩
  · intro is i hpre _ _
    obtain rfl : i = _ := mem_singleton.mp (hpre.subset (mem_append_right _
      (mem_singleton_self i)))
    rfl

/-- Both predicates of a round are zero: the round is not removed, whatever comes after. -/
theorem arg_demux_keeps_round_without_one : ∃ inputs : List (Inputs 2 1 Nat),
    let c := blockDemux 2 1 Nat
    (∀ rid, predsOf (c.trace inputs) rid = [false] ∧ valuesOf (c.trace inputs) 0 rid = [7]) ∧
      ∀ rest, ¬ Finished 0 (c.run (inputs ++ rest)) := by
  refine ⟨[twoEdges (fun _ => some false) fun _ => some 7], by decide, fun rest hfin => ?_⟩
  have hstuck : Stuck 0 ((blockDemux 2 1 Nat).run
      [twoEdges (fun _ => some false) fun _ => some 7]) := ⟨rfl, by decide, by decide⟩
  obtain ⟨⟨rid, hnil⟩, -⟩ := hfin
  have hrest := hstuck.run rfl rest
  rcases hnil with hnil | hnil
  · have hhead := hrest.preds rid
    rw [hnil] at hhead
    cases hhead
  · exact hrest.values rid hnil

end Alkali.Fpga.BlockDemux
