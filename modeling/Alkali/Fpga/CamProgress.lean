import Alkali.Fpga.CamRuns

/-!
# A table answers every lookup

In a quiet cycle each request that waits comes closer to its response. The rank counts the
steps that are left, with the five cycles that an update stalls.
-/

namespace Alkali.Fpga

open Synchronous List Circuit Fifo Option CamWarpper

variable {w up lp : Nat} {K V : Type}

namespace CamWarpper

variable {s : CamWarpper w K V} {i : Inputs K V}

/-- The steps left for the requests in the wrapper. -/
def rank (s : CamWarpper w K V) : Nat :=
  11 * s.matchReq.length + s.stallCount + 3 * s.result.isSome.toNat +
    2 * s.readValue.isSome.toNat + (!s.readReady).toNat

theorem length_moved : (moved s i).toList.length =
    (if updateReady s i then i.updateReq else none).toList.length +
      (if lookupReady s i then i.lookupReq else none).toList.length := by
  rw [moved, updateReady, lookupReady]
  cases s.grant with
  | none => simp
  | some select =>
    cases select <;> cases i.muxReady <;> cases i.updateReq <;> cases i.lookupReq <;> simp

theorem moved_of_grant_none (h : s.grant = none) : moved s i = none := by
  simp [moved, updateReady, lookupReady, h]

theorem isSome_moved (hmux : i.muxReady) {select : Bool} (h : s.grant = some select) :
    (moved s i).isSome = if select then i.updateReq.isSome else i.lookupReq.isSome := by
  cases select <;> simp [moved, updateReady, lookupReady, h, hmux]

/-- `match_mux` chooses a request whenever there is one. -/
theorem isSome_grantNext (h : s.grant = none) :
    (grantNext s i).isSome = (i.updateReq.isSome || i.lookupReq.isSome) := by
  obtain hupd | ⟨x, hupd⟩ := eq_none_or_eq_some i.updateReq <;>
    obtain hlk | ⟨y, hlk⟩ := eq_none_or_eq_some i.lookupReq <;>
    simp [grantNext, h, matchSelect, hupd, hlk]

/-- A grant stays until its request is moved. -/
theorem grantNext_eq_some {select : Bool} (h : grantNext s i = some select) : moved s i = none ∧
      (s.grant = some select ∨ if select then i.updateReq.isSome else i.lookupReq.isSome) := by
  rw [grantNext] at h
  cases hgrant : s.grant with
  | none =>
    rw [hgrant] at h
    by_cases hreq : (if matchSelect s i then i.updateReq.isSome else i.lookupReq.isSome) = true
    · rw [if_pos hreq] at h
      cases h
      exact ⟨moved_of_grant_none hgrant, Or.inr (by simpa using hreq)⟩
    · rw [if_neg hreq] at h
      cases h
  | some select' =>
    rw [hgrant] at h
    dsimp only at h
    by_cases hmoved : (moved s i).isSome
    · rw [if_pos hmoved] at h
      cases h
    · rw [if_neg hmoved] at h
      cases h
      exact ⟨not_isSome_iff_eq_none.mp hmoved, Or.inl rfl⟩

/-- A request that waits at the match stage is taken, unless an update stalls it or the ram was
not ready. -/
theorem length_taken (hshows : i.matchShows)
    (hpend : ∀ key v, s.result = some (.update key v) → 0 < s.stallCount) :
    (taken s i).toList.length =
      if s.stallCount = 0 ∧ s.readReady ∧ s.matchReq ≠ [] then 1 else 0 := by
  have hrdy : s.stallCount = 0 → resultReady s i = s.readReady := by
    intro hstall
    rw [resultReady]
    split
    · rename_i key v hres
      exact absurd hstall (hpend key v hres).ne'
    · rfl
  rw [taken, popped, matchReady, front, if_pos hshows]
  by_cases hstall : s.stallCount = 0
  · cases hread : s.readReady <;> cases hreq : s.matchReq <;> simp [hstall, hrdy hstall, hread]
  · simp [hstall]

theorem stallNext_le : stallNext s i ≤ s.stallCount - 1 + 5 * (taken s i).toList.length := by
  rw [stallNext]
  cases htaken : taken s i with
  | none => simp
  | some r => cases r <;> simp

theorem isSome_readNext_le : (readNext s).isSome.toNat ≤ s.result.isSome.toNat := by
  rw [readNext]
  split
  · rename_i hres
    rw [hres]
    exact Bool.toNat_le _
  · exact Nat.zero_le _

variable [DecidableEq K]

/-- A quiet cycle of the wrapper. -/
theorem rank_next (hshows : i.matchShows) (hvalue : i.valueReady)
    (hpend : ∀ key v, s.result = some (.update key v) → 0 < s.stallCount) :
    (next s i).rank + 2 * s.readValue.isSome.toNat + min 1 (s.rank - 2 * s.readValue.isSome.toNat) ≤
      s.rank + 11 * (moved s i).toList.length := by
  have hq := congrArg List.length
    (popped_append_next i.matchShows (matchReady s i) s.matchReq (moved s i))
  rw [length_append, length_append] at hq
  change (taken s i).toList.length + (next s i).matchReq.length = _ at hq
  have htaken := length_taken hshows hpend
  have hstall := stallNext_le (s := s) (i := i)
  have hread := isSome_readNext_le (s := s)
  have hres : (taken s i).isSome.toNat = (taken s i).toList.length := by
    cases taken s i <;> rfl
  have hrank : (next s i).rank = 11 * (next s i).matchReq.length + stallNext s i +
      3 * (taken s i).isSome.toNat + 2 * (readNext s).isSome.toNat + (!i.valueReady).toNat := rfl
  rw [hrank, rank, hres, hvalue, Bool.not_true, Bool.toNat_false]
  split at htaken
  · rename_i hcase
    omega
  · rename_i hcase
    cases hrdy : s.readReady with
    | false =>
      rw [Bool.not_false, Bool.toNat_true]
      omega
    | true =>
      have hreq : s.stallCount = 0 → s.matchReq.length = 0 := by
        intro hzero
        by_contra hne
        exact hcase ⟨hzero, hrdy, length_pos_iff.mp (Nat.pos_of_ne_zero hne)⟩
      omega

end CamWarpper

namespace CamArbiter

section Front

variable {s : CamArbiter w up lp K V} {i : Inputs up lp K V}

/-- `match_mux` has chosen a request that is there. -/
def Granted (s : CamArbiter w up lp K V) : Prop :=
  (s.warpper.grant = some true → s.updates ≠ []) ∧ (s.warpper.grant = some false → s.lookups ≠ [])

/-- The updates whose key and value are at a port. -/
def paired (s : CamArbiter w up lp K V) : List (K × V) :=
  (List.finRange up).flatMap fun port => (s.index port).zip (s.data port)

/-- The lookups that are at a port. -/
def registered (s : CamArbiter w up lp K V) : List K := (List.finRange lp).flatMap s.lookupReg

/-- The steps left for the requests in front of the wrapper. A grant is one of them. -/
def frontRank (s : CamArbiter w up lp K V) : Nat :=
  14 * ((paired s).length + (registered s).length) + 13 * (s.updates.length + s.lookups.length) -
    s.warpper.grant.isSome.toNat

theorem output_updates_of_quiet (h : Quiet i) : (output s i).updates = [] := by
  rw [output, filterMap_eq_nil_iff]
  intro port _
  rw [completed, (h.index port).1, (h.data port).1]
  simp

theorem isSome_merged (h : Quiet i) (port : Fin up) :
    (merged s i port).isSome ↔ (s.index port).zip (s.data port) ≠ [] := by
  rw [merged, front, front, if_pos (h.index port).2, if_pos (h.data port).2]
  cases s.index port <;> cases s.data port <;> simp

theorem length_pickedUpdate (h : Quiet i) :
    (pickedUpdate s i).toList.length = min 1 (paired s).length :=
  length_find?_bind h.updateOrder (isSome_merged h)

theorem length_pickedLookup_eq : (pickedLookup s i).toList.length =
    ((lookupPick s i).bind (lookupIndex s i)).toList.length := by
  rw [pickedLookup]
  cases lookupPick s i with
  | none => rfl
  | some port => cases hidx : lookupIndex s i port <;> simp [hidx]

theorem length_pickedLookup (h : Quiet i) :
    (pickedLookup s i).toList.length = min 1 (registered s).length := by
  rw [length_pickedLookup_eq]
  exact length_find?_bind h.lookupOrder fun port => by
    rw [lookupIndex, front, if_pos (h.lookup port).2, isSome_head?]

theorem popped_of_moved_none (h : s.warpper.moved (warpperInputs s i) = none) :
    popped i.updateShows (s.warpper.updateReady (warpperInputs s i)) s.updates = none ∧
      popped i.lookupShows (s.warpper.lookupReady (warpperInputs s i)) s.lookups = none := by
  have hmoved := length_moved (s := s.warpper) (i := warpperInputs s i)
  rw [h, toList_none, length_nil, eq_comm, Nat.add_eq_zero_iff,
    length_eq_zero_iff, length_eq_zero_iff, toList_eq_nil_iff,
    toList_eq_nil_iff] at hmoved
  exact hmoved

theorem next_ne_nil {α : Type} {shows ready : Bool} {q : List α} (hq : q ≠ [])
    (hpopped : popped shows ready q = none) (pushed : Option α) :
    Fifo.next shows ready q pushed ≠ [] := by
  have hqueue := popped_append_next shows ready q pushed
  rw [hpopped, toList_none, nil_append] at hqueue
  rw [hqueue]
  exact append_ne_nil_of_left_ne_nil hq _

variable [DecidableEq K]

theorem length_paired_next (h : Quiet i) :
    (pickedUpdate s i).toList.length + (paired (next s i)).length = (paired s).length := by
  have hperm := (ports_next s i).length_eq
  rwa [output_updates_of_quiet h, append_nil, length_append] at hperm

theorem length_registered_next (h : Quiet i) :
    (pickedLookup s i).toList.length + (registered (next s i)).length = (registered s).length := by
  have hport : ∀ port, (if lookupPick s i = some port then (lookupIndex s i port).toList else []) ++
      (next s i).lookupReg port = s.lookupReg port := by
    intro port
    have hq := popped_append_next (i.lookup port).shows (lookupPick s i = some port)
      (s.lookupReg port) (i.lookup port).pushed
    change _ ++ (next s i).lookupReg port = _ at hq
    rw [(h.lookup port).1, toList_none, append_nil, popped] at hq
    by_cases hpick : lookupPick s i = some port
    · simpa [hpick, lookupIndex] using hq
    · simpa [hpick] using hq
  have hlen := (flatMap_append_perm (List.finRange lp)
    (fun port => if lookupPick s i = some port then (lookupIndex s i port).toList else [])
    (next s i).lookupReg).length_eq
  rw [flatMap_congr fun port _ => hport port, flatMap_ite_eq, length_append] at hlen
  rw [length_pickedLookup_eq]
  exact hlen

theorem granted_next (h : Granted s) : Granted (next s i) := by
  constructor <;> intro hgrant
  all_goals
    obtain ⟨hmoved, hchosen⟩ := grantNext_eq_some hgrant
    obtain ⟨hupd, hlk⟩ := popped_of_moved_none hmoved
  · refine next_ne_nil ?_ hupd _
    rcases hchosen with hgrant | hfront
    · exact h.1 hgrant
    · exact ne_nil_of_front hfront
  · refine next_ne_nil ?_ hlk _
    rcases hchosen with hgrant | hfront
    · exact h.2 hgrant
    · exact ne_nil_of_front hfront

/-- In a quiet cycle `match_mux` chooses a request or moves the one that it has chosen. -/
theorem grant_quiet (hgrd : Granted s) (h : Quiet i) :
    (s.warpper.grant = none ∧ s.warpper.moved (warpperInputs s i) = none ∧
      (next s i).warpper.grant.isSome.toNat = min 1 (s.updates.length + s.lookups.length)) ∨
    (s.warpper.grant.isSome ∧ (s.warpper.moved (warpperInputs s i)).isSome ∧
      (next s i).warpper.grant = none ∧ 0 < s.updates.length + s.lookups.length) := by
  obtain ⟨hupd, hlk, -, hmux⟩ := h.shows
  have hfronts : (warpperInputs s i).updateReq = s.updates.head? ∧
      (warpperInputs s i).lookupReq = s.lookups.head? := by
    simp [warpperInputs, front, hupd, hlk]
  cases hgrant : s.warpper.grant with
  | none =>
    refine Or.inl ⟨rfl, moved_of_grant_none hgrant, ?_⟩
    change (grantNext _ _).isSome.toNat = _
    rw [isSome_grantNext hgrant, hfronts.1, hfronts.2]
    cases s.updates <;> cases s.lookups <;> simp
    omega
  | some select =>
    have hne : if select then s.updates ≠ [] else s.lookups ≠ [] := by
      cases select with
      | true => exact hgrd.1 hgrant
      | false => exact hgrd.2 hgrant
    have hmoved : (s.warpper.moved (warpperInputs s i)).isSome := by
      rw [isSome_moved hmux hgrant, hfronts.1, hfronts.2]
      cases select <;> simpa using hne
    refine Or.inr ⟨rfl, hmoved, ?_, ?_⟩
    · change grantNext _ _ = none
      simp [grantNext, hgrant, hmoved]
    · cases select with
      | true => exact Nat.add_pos_left (length_pos_iff.mpr hne) _
      | false => exact Nat.add_pos_right _ (length_pos_iff.mpr hne)

/-- A quiet cycle in front of the wrapper. -/
theorem frontRank_next (hgrd : Granted s) (h : Quiet i) :
    frontRank (next s i) + 11 * (s.warpper.moved (warpperInputs s i)).toList.length +
      min 1 (frontRank s) ≤ frontRank s := by
  have hpaired := length_paired_next (s := s) h
  have hreg := length_registered_next (s := s) h
  have hupd := length_pickedUpdate (s := s) h
  have hlk := length_pickedLookup (s := s) h
  have hupdates := congrArg List.length (popped_append_next i.updateShows
    (s.warpper.updateReady (warpperInputs s i)) s.updates (pickedUpdate s i))
  have hlks := congrArg List.length (popped_append_next i.lookupShows
    (s.warpper.lookupReady (warpperInputs s i)) s.lookups (pickedLookup s i))
  rw [length_append, length_append] at hupdates hlks
  change (popped _ _ _).toList.length + (next s i).updates.length = _ at hupdates
  change (popped _ _ _).toList.length + (next s i).lookups.length = _ at hlks
  have hmoved := length_moved (s := s.warpper) (i := warpperInputs s i)
  change _ = (popped i.updateShows (s.warpper.updateReady (warpperInputs s i))
    s.updates).toList.length + (popped i.lookupShows
      (s.warpper.lookupReady (warpperInputs s i)) s.lookups).toList.length at hmoved
  rw [frontRank, frontRank]
  rcases grant_quiet hgrd h with ⟨hgrant, hnone, hnext⟩ | ⟨hgrant, hsome, hnext, hpos⟩
  · rw [hnone, toList_none, length_nil] at hmoved
    rw [hgrant, hnext, hnone, isSome_none, Bool.toNat_false, toList_none, length_nil]
    omega
  · obtain ⟨r, hr⟩ := isSome_iff_exists.mp hsome
    rw [hr, toList_some, length_singleton] at hmoved
    rw [hgrant, hnext, hr, isSome_none, Bool.toNat_false, Bool.toNat_true,
      toList_some, length_singleton]
    omega

end Front

section Rank

variable [DecidableEq K] {s : CamArbiter w up lp K V} {i : Inputs up lp K V}

/-- The responses that have not left. -/
def resulting (s : CamArbiter w up lp K V) : List V := (List.finRange lp).flatMap s.results

/-- The steps left for all requests. -/
def rank (s : CamArbiter w up lp K V) : Nat :=
  frontRank s + s.warpper.rank + (resulting s).length

omit [DecidableEq K] in
theorem length_delivered : ((List.finRange lp).flatMap fun port =>
    (delivered s i port).toList).length ≤ s.warpper.readValue.isSome.toNat := by
  cases hread : s.warpper.readValue with
  | none => simp [delivered, hread]
  | some x =>
    refine Fifo.length_flatMap_le_one fun port port' hport hport' => Fin.ext ?_
    simp only [delivered, hread, bind_some, isSome_ite] at hport hport'
    exact hport.1.symm.trans hport'.1

theorem length_resulting_next (h : Quiet i) :
    (resulting (next s i)).length + min 1 (resulting s).length ≤
      (resulting s).length + s.warpper.readValue.isSome.toNat := by
  refine (Fifo.length_flatMap_next s.results _ (delivered s i) fun port => ?_).trans
    (Nat.add_le_add_left length_delivered _)
  obtain ⟨-, hshows, hrdy⟩ := h.result port
  change Fifo.next _ _ _ _ = _
  rw [hshows, hrdy]

theorem rank_next (hgrd : Granted s) (h : Quiet i)
    (hpend : ∀ key v, s.warpper.result = some (.update key v) → 0 < s.warpper.stallCount) :
    rank (next s i) ≤ rank s - 1 := by
  have hvalue : (warpperInputs s i).valueReady := by
    simp [warpperInputs, fun port => (h.result port).1]
  have hwarpper := CamWarpper.rank_next (i := warpperInputs s i) h.shows.2.2.1 hvalue hpend
  have hfront := frontRank_next hgrd h
  have hresulting := length_resulting_next (s := s) h
  change frontRank _ + (s.warpper.next (warpperInputs s i)).rank + _ ≤ _
  rw [rank]
  omega

/-- What holds in every run: a grant has its request, and an update in the match stage stalls. -/
structure Ready (s : CamArbiter w up lp K V) : Prop where
  granted : Granted s
  pending : ∀ key v, s.warpper.result = some (.update key v) → 0 < s.warpper.stallCount

theorem ready_next (h : Ready s) : Ready (next s i) where
  granted := granted_next h.granted
  pending key v hres := by
    change 0 < s.warpper.stallNext (warpperInputs s i)
    have htaken : s.warpper.taken (warpperInputs s i) = some (.update key v) := hres
    rw [stallNext, htaken]
    exact Nat.succ_pos 4

omit [DecidableEq K] in
theorem empty_of_rank_zero (h : rank s = 0) (port : Fin lp) :
    s.results port = [] ∧ s.warpper.readValue = none ∧ s.warpper.result = none ∧
      waitingLookups s port = [] := by
  have hgrant := s.warpper.grant.isSome.toNat_le
  rw [rank, frontRank, CamWarpper.rank] at h
  have hresulting : resulting s = [] := length_eq_zero_iff.mp (by omega)
  have hreg : registered s = [] := length_eq_zero_iff.mp (by omega)
  have hlks : s.lookups = [] := length_eq_zero_iff.mp (by omega)
  have hmatch : s.warpper.matchReq = [] := length_eq_zero_iff.mp (by omega)
  have hread : s.warpper.readValue.isSome.toNat = 0 := by omega
  have hres : s.warpper.result.isSome.toNat = 0 := by omega
  refine ⟨flatMap_eq_nil_iff.mp hresulting port (mem_finRange port), ?_, ?_, ?_⟩
  · simpa using hread
  · simpa using hres
  · rw [waitingLookups, hmatch, hlks, flatMap_eq_nil_iff.mp hreg port (mem_finRange port)]
    rfl

end Rank

section Answers

variable [DecidableEq K] [Zero V]

theorem ready_run (inputs : List (Inputs up lp K V)) : Ready ((table w up lp K V).run inputs) := by
  refine Circuit.invariant (P := fun _ s => Ready s) ?_ (fun _ _ _ hrdy _ => ready_next hrdy)
    (along_true inputs)
  exact ⟨⟨nofun, nofun⟩, nofun⟩

/-- In every run in which the match stage loses nothing, no lookup without a match finds a
value, and no update overtakes or is overtaken by a request for its key, the responses of each
port are those of its lookups in order, and all of them as soon as nothing stalls. -/
theorem table_answers (w up lp : Nat) (hlp : lp ≤ 16) (inputs : List (Inputs up lp K V))
    (hok : (table w up lp K V).Along Served inputs)
    (hkeys : (keysOf (updatesOf ((table w up lp K V).trace inputs))).card ≤ 2 ^ w) :
    let c := table w up lp K V
    InOrder (c.trace inputs) ∧ ∃ n, ∀ rest : List (Inputs up lp K V), (∀ i ∈ rest, Quiet i) →
        c.Along Served (inputs ++ rest) → n ≤ rest.length →
          Answered (c.trace (inputs ++ rest)) := by
  intro c
  refine ⟨fun port => ?_, rank (c.run inputs), fun rest hrest halong hlen port => ?_⟩
  · rw [(inv_run hlp hok hkeys).answered port, append_assoc]
    exact prefix_append _ _
  · have hstep : ∀ is i, updatesOf (c.trace is) = updatesOf (c.trace inputs) → Quiet i →
        updatesOf (c.trace (is ++ [i])) = updatesOf (c.trace inputs) ∧
          rank (c.next (c.run is) i) ≤ rank (c.run is) - 1 := by
      intro is i hsame hquiet
      have hrdy := ready_run (w := w) is
      refine ⟨?_, rank_next hrdy.granted hquiet hrdy.pending⟩
      rw [trace_concat, updatesOf_concat, hsame]
      change _ ++ (output _ i).updates = _
      rw [output_updates_of_quiet hquiet, append_nil]
    obtain ⟨hsame, hrank⟩ := rank_append rank hstep rfl hrest
    have hzero : rank (c.run (inputs ++ rest)) = 0 :=
      Nat.eq_zero_of_le_zero (hrank.trans (Nat.sub_eq_zero_of_le hlen).le)
    obtain ⟨hres, hread, hresult, hwaiting⟩ :=
      empty_of_rank_zero hzero port
    rw [← hsame] at hkeys
    rw [(inv_run hlp halong hkeys).answered port, hwaiting, answers, hres, hread, hresult]
    simp only [bind_none, map_none, toList_none, map_nil, append_nil]
    rfl

end Answers

/-- A cycle of a table with two ports, in which whatever can move moves. -/
def cycle (update : Option (K × V)) (lookup : Option K) : Inputs 1 1 K V where
  index _ := ⟨update.map Prod.fst, true, true⟩
  data _ := ⟨update.map Prod.snd, true, true⟩
  updateOrder := [0]
  updateShows := true
  lookup _ := ⟨lookup, true, true⟩
  lookupOrder := [0]
  lookupShows := true
  muxReady := true
  matchShows := true
  camBusy := false
  result _ := ⟨true, true, true⟩

/-- A key is updated, and looked up when the update is written. -/
def updateThenLookup : List (Inputs 1 1 (Fin 2) (Fin 2)) :=
  cycle (some (.last 1, .last 1)) none :: List.replicate 7 (cycle none none) ++
    cycle none (some (.last 1)) :: List.replicate 7 (cycle none none)

theorem served_updateThenLookup :
    (table 4 1 1 (Fin 2) (Fin 2)).Along Served updateThenLookup := by
  refine along_of_take fun n => ?_
  constructor <;> revert n <;> decide +kernel

theorem table_answers_updateThenLookup :
    responses 0 ((table 4 1 1 (Fin 2) (Fin 2)).trace updateThenLookup) = [1] ∧
      InOrder ((table 4 1 1 (Fin 2) (Fin 2)).trace updateThenLookup) ∧
      ∃ n, ∀ rest : List (Inputs 1 1 (Fin 2) (Fin 2)), (∀ i ∈ rest, Quiet i) →
        (table 4 1 1 (Fin 2) (Fin 2)).Along Served (updateThenLookup ++ rest) →
          n ≤ rest.length →
            Answered ((table 4 1 1 (Fin 2) (Fin 2)).trace (updateThenLookup ++ rest)) :=
  ⟨by decide +kernel, table_answers 4 1 1 (by decide) updateThenLookup served_updateThenLookup
    (by decide +kernel)⟩

/-- Three keys are updated and a fourth one is looked up. -/
def threeUpdates : List (Inputs 1 1 (BitVec 8) (BitVec 8)) :=
  [(some (10, 1), none), (some (20, 2), none), (some (30, 3), none), (none, some 40)].flatMap
    fun x => cycle x.1 x.2 :: List.replicate 7 (cycle none none)

/-- The response is the value of the third key, which is at the address 2. -/
theorem table_answers_other_key :
    (keysOf (updatesOf ((table 4 1 1 (BitVec 8) (BitVec 8)).trace threeUpdates))).card ≤ 2 ^ 4 ∧
      expected 0 ((table 4 1 1 (BitVec 8) (BitVec 8)).trace threeUpdates) = [0] ∧
      responses 0 ((table 4 1 1 (BitVec 8) (BitVec 8)).trace threeUpdates) = [3] ∧
      ¬ InOrder ((table 4 1 1 (BitVec 8) (BitVec 8)).trace threeUpdates) := by
  have hkeys : updatesOf ((table 4 1 1 (BitVec 8) (BitVec 8)).trace threeUpdates) =
      [(10, 1), (20, 2), (30, 3)] := by decide +kernel
  have hexpected : expected 0 ((table 4 1 1 (BitVec 8) (BitVec 8)).trace threeUpdates) = [0] := by
    decide +kernel
  have hresps : responses 0 ((table 4 1 1 (BitVec 8) (BitVec 8)).trace threeUpdates) = [3] := by
    decide +kernel
  refine ⟨by rw [hkeys]; decide, hexpected, hresps, fun hord => ?_⟩
  have hpre := hord 0
  rw [hexpected, hresps] at hpre
  revert hpre
  decide

end CamArbiter

end Alkali.Fpga
