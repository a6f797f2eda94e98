import Alkali.Fpga.CamArbiter

/-!
# The runs of a table

For each key the updates that wait and the store give the value of the latest accepted update.
A lookup that waits has no update of its key beside it, so it finds the value that was the
latest when it was accepted.
-/

namespace Alkali.Fpga.CamArbiter

open Synchronous List Fifo Option CamWarpper

variable {w up lp : Nat} {K V : Type}

/-! ## The queues of the ports -/

/-- One more key and one more value make at most one more pair. -/
theorem zip_append_toList (ks : List K) (vs : List V) (k : Option K) (v : Option V) :
    (ks ++ k.toList).zip (vs ++ v.toList) =
      ks.zip vs ++ ((ks ++ k.toList).zip (vs ++ v.toList))[(ks.zip vs).length]?.toList := by
  induction ks generalizing vs with
  | nil => cases k <;> cases vs <;> cases v <;> simp
  | cons x ks ih =>
    cases vs with
    | nil => cases v <;> simp
    | cons y vs =>
      exact congrArg _ (ih vs)

section Signals

variable (s : CamArbiter w up lp K V) (i : Inputs up lp K V)

theorem merged_of_updatePick {port : Fin up} (h : updatePick s i = some port) :
    (merged s i port).isSome :=
  find?_some (p := fun port => (merged s i port).isSome) h

theorem lookupIndex_of_lookupPick {port : Fin lp} (h : lookupPick s i = some port) :
    (lookupIndex s i port).isSome :=
  find?_some (p := fun port => (lookupIndex s i port).isSome) h

theorem merged_eq_some {port : Fin up} {x : K × V} (h : merged s i port = some x) :
    front (i.index port).shows (s.index port) = some x.1 ∧
      front (i.data port).shows (s.data port) = some x.2 := by
  rw [merged] at h
  split at h
  · cases h
    exact ⟨by assumption, by assumption⟩
  · cases h

end Signals

variable [DecidableEq K]

section

variable (s : CamArbiter w up lp K V) (i : Inputs up lp K V)
include s i

/-- The pairs of a port, of which one may leave and one may come in. -/
theorem pairs_next (port : Fin up) :
    (if updatePick s i = some port then (merged s i port).toList else []) ++
        ((next s i).index port).zip ((next s i).data port) =
      (s.index port).zip (s.data port) ++ (completed s i port).toList := by
  rw [completed, ← zip_append_toList]
  simp only [next, Fifo.next]
  by_cases hpick : updatePick s i = some port
  · obtain ⟨x, hx⟩ := isSome_iff_exists.mp (merged_of_updatePick s i hpick)
    obtain ⟨hkey, hvalue⟩ := merged_eq_some s i hx
    rw [if_pos hpick, hx, hkey, hvalue]
    simp only [hpick, decide_true, isSome_some, Bool.and_self, if_true]
    conv_rhs => rw [front_eq_some hkey, front_eq_some hvalue]
    rfl
  · simp [hpick]

/-- Of the updates at the ports and those that are completed, one may go to `update_mux`. -/
theorem ports_next : ((pickedUpdate s i).toList ++ (List.finRange up).flatMap fun port =>
        ((next s i).index port).zip ((next s i).data port)).Perm
      (((List.finRange up).flatMap fun port => (s.index port).zip (s.data port)) ++
        (output s i).updates) := by
  rw [pickedUpdate, ← flatMap_ite_eq, output, filterMap_eq_flatMap_toList]
  refine (flatMap_append_perm _ _ _).trans ?_
  refine List.Perm.trans ?_ (flatMap_append_perm _ _ _).symm
  rw [flatMap_congr fun port _ => pairs_next s i port]

/-- The accepted updates wait until the match stage takes them. -/
theorem waitingUpdates_next : (((s.warpper.taken (warpperInputs s i)).bind Req.asUpdate).toList ++
        waitingUpdates (next s i)).Perm (waitingUpdates s ++ (output s i).updates) := by
  have hmux := popped_append_next i.updateShows
    (s.warpper.updateReady (warpperInputs s i)) s.updates (pickedUpdate s i)
  have hmatch := popped_append_next_filterMap Req.asUpdate i.matchShows
    (s.warpper.matchReady (warpperInputs s i)) s.warpper.matchReq
    (s.warpper.moved (warpperInputs s i))
  rw [asUpdate_moved] at hmatch
  change _ ++ (next s i).updates = _ at hmux
  change ((s.warpper.taken (warpperInputs s i)).bind _).toList ++
    (next s i).warpper.matchReq.filterMap _ = _ ++ (popped _ _ _).toList at hmatch
  classical
  refine perm_iff_count.mpr fun x => ?_
  have hports := perm_iff_count.mp (ports_next s i) x
  have hmux := congrArg (List.count x) hmux
  have hmatch := congrArg (List.count x) hmatch
  simp only [waitingUpdates, count_append] at hports hmux hmatch ⊢
  omega

end

omit [DecidableEq K] in
theorem user_eq_iff (hlp : lp ≤ 16) (port port' : Fin lp) :
    BitVec.ofNat 4 port = BitVec.ofNat 4 port' ↔ port = port' := by
  refine ⟨fun h => Fin.ext ?_, fun h => h ▸ rfl⟩
  have hnat := congrArg BitVec.toNat h
  simp only [BitVec.toNat_ofNat] at hnat
  omega

omit [DecidableEq K] in
/-- The lookup of a port that `lookup_mux` takes. -/
theorem pickedLookup_bind (hlp : lp ≤ 16) (s : CamArbiter w up lp K V) (i : Inputs up lp K V)
    (port : Fin lp) :
    ((pickedLookup s i).bind fun x => if x.2 = BitVec.ofNat 4 port then some x.1 else none) =
      popped (i.lookup port).shows (lookupPick s i = some port) (s.lookupReg port) := by
  rw [pickedLookup, popped]
  cases hpick : lookupPick s i with
  | none => simp
  | some port' =>
    obtain ⟨key, hkey⟩ := isSome_iff_exists.mp (lookupIndex_of_lookupPick s i hpick)
    by_cases hport : port' = port
    · subst hport
      rw [lookupIndex] at hkey
      simp [lookupIndex, hkey]
    · simp [hkey, user_eq_iff hlp, hport]

/-- Three queues one after the other. -/
theorem append_of_append_eq {α : Type} {t m m' b l l' c r r' p : List α}
    (hm : t ++ m' = m ++ b) (hl : b ++ l' = l ++ c) (hr : c ++ r' = r ++ p) :
    t ++ (m' ++ l' ++ r') = m ++ l ++ r ++ p := by
  calc t ++ (m' ++ l' ++ r') = (t ++ m') ++ l' ++ r' := by simp only [append_assoc]
    _ = m ++ (b ++ l') ++ r' := by simp only [hm, append_assoc]
    _ = m ++ l ++ (c ++ r') := by simp only [hl, append_assoc]
    _ = m ++ l ++ r ++ p := by simp only [hr, append_assoc]

/-- The same for the lookups of a port, in order. -/
theorem waitingLookups_next (hlp : lp ≤ 16) (s : CamArbiter w up lp K V)
    (i : Inputs up lp K V) (port : Fin lp) :
    ((s.warpper.taken (warpperInputs s i)).bind (Req.asLookup (BitVec.ofNat 4 port))).toList ++
        waitingLookups (next s i) port =
      waitingLookups s port ++ (i.lookup port).pushed.toList := by
  have hreg := popped_append_next (i.lookup port).shows (lookupPick s i = some port)
    (s.lookupReg port) (i.lookup port).pushed
  have hmux := popped_append_next_filterMap
    (fun x : K × BitVec 4 => if x.2 = BitVec.ofNat 4 port then some x.1 else none)
    i.lookupShows (s.warpper.lookupReady (warpperInputs s i)) s.lookups (pickedLookup s i)
  have hmatch := popped_append_next_filterMap (Req.asLookup (BitVec.ofNat 4 port))
    i.matchShows (s.warpper.matchReady (warpperInputs s i)) s.warpper.matchReq
    (s.warpper.moved (warpperInputs s i))
  have hmoved : (if s.warpper.lookupReady (warpperInputs s i) then
      (warpperInputs s i).lookupReq.bind fun x => if x.2 = BitVec.ofNat 4 port then some x.1
        else none else none) =
      (popped i.lookupShows (s.warpper.lookupReady (warpperInputs s i)) s.lookups).bind
        fun x => if x.2 = BitVec.ofNat 4 port then some x.1 else none := by
    cases s.warpper.lookupReady (warpperInputs s i) <;> rfl
  rw [asLookup_moved, hmoved] at hmatch
  rw [pickedLookup_bind hlp] at hmux
  exact append_of_append_eq hmatch hmux hreg

/-! ## The responses -/

/-- What was read for a port and has not left, and the lookup in the match stage. -/
def answers [Zero V] (s : CamArbiter w up lp K V) (port : Fin lp) : List V :=
  s.results port ++ (s.warpper.readValue.bind fun x =>
      if x.2 = BitVec.ofNat 4 port then some x.1 else none).toList ++
    ((s.warpper.result.bind (Req.asLookup (BitVec.ofNat 4 port))).map s.warpper.value).toList

section Spec

variable [Zero V]

theorem latest_append_of_notMem {us vs : List (K × V)} {key : K}
    (h : key ∉ vs.map Prod.fst) : latest (us ++ vs) key = latest us key := by
  have hnone : vs.reverse.find? (fun x => x.1 = key) = none := by
    rw [find?_eq_none]
    intro x hx heq
    exact h (mem_map.mpr ⟨x, mem_reverse.mp hx, by simpa using heq⟩)
  rw [latest, latest, reverse_append, find?_append, hnone, none_or]

theorem latest_append_of_mem {us vs : List (K × V)} (hnd : (vs.map Prod.fst).Nodup)
    {x : K × V} (hx : x ∈ vs) : latest (us ++ vs) x.1 = x.2 := by
  have hfind : vs.reverse.find? (fun y => y.1 = x.1) = some x := by
    cases hfind : vs.reverse.find? (fun y => y.1 = x.1) with
    | none =>
      have hnone := find?_eq_none.mp hfind x (mem_reverse.mpr hx)
      simp at hnone
    | some y =>
      have hkey : y.1 = x.1 := by simpa using find?_some hfind
      have hy := mem_reverse.mp (mem_of_find?_eq_some hfind)
      rw [inj_on_of_nodup_map hnd hy hx hkey]
  rw [latest, reverse_append, find?_append, hfind, some_or]

theorem expectedFrom_concat (port : Fin lp) (us : List (K × V))
    (h : List (Inputs up lp K V × Outputs lp K V)) (i : Inputs up lp K V) (o : Outputs lp K V) :
    expectedFrom port us (h ++ [(i, o)]) = expectedFrom port us h ++
      ((i.lookup port).pushed.map (latest (us ++ updatesOf h))).toList := by
  induction h generalizing us with
  | nil => simp [expectedFrom, updatesOf]
  | cons x h ih =>
    simp only [cons_append, expectedFrom, ih, append_assoc]
    rfl

end Spec

omit [DecidableEq K] in
theorem updatesOf_concat (h : List (Inputs up lp K V × Outputs lp K V)) (i : Inputs up lp K V)
    (o : Outputs lp K V) : updatesOf (h ++ [(i, o)]) = updatesOf h ++ o.updates := by
  simp [updatesOf]

theorem keysOf_subset_append (us vs : List (K × V)) : keysOf us ⊆ keysOf (us ++ vs) := by
  intro key hkey
  rw [keysOf, List.mem_toFinset] at hkey ⊢
  rw [map_append]
  exact mem_append_left _ hkey

/-! ## The invariant -/

section Run

variable [Zero V] {h : List (Inputs up lp K V × Outputs lp K V)} {s : CamArbiter w up lp K V}
  {i : Inputs up lp K V}

structure Inv (h : List (Inputs up lp K V × Outputs lp K V)) (s : CamArbiter w up lp K V) :
    Prop where
  store : s.warpper.Store (keysOf (updatesOf h))
  accepted : ∀ x ∈ waitingUpdates s, x ∈ updatesOf h
  newest : ∀ x ∈ waitingUpdates s, latest (updatesOf h) x.1 = x.2
  value : ∀ key, key ∉ (waitingUpdates s).map Prod.fst →
    latest (updatesOf h) key = s.warpper.value key
  apart : ∀ port, ∀ key ∈ waitingLookups s port, key ∉ (waitingUpdates s).map Prod.fst
  answered : ∀ port, expected port h = responses port h ++ answers s port ++
    (waitingLookups s port).map (latest (updatesOf h))

/-- The updates that wait and those that are completed are the latest ones of their keys. -/
theorem Inv.newest_step (hinv : Inv h s) (hok : Served s i) {x : K × V}
    (hx : x ∈ waitingUpdates s ++ (output s i).updates) :
    latest (updatesOf h ++ (output s i).updates) x.1 = x.2 := by
  have hnd := hok.updated
  rw [map_append, nodup_append'] at hnd
  rcases mem_append.mp hx with hx | hx
  · rw [latest_append_of_notMem (hnd.2.2 (mem_map_of_mem hx)), hinv.newest x hx]
  · exact latest_append_of_mem hnd.2.1 hx

omit [DecidableEq K] [Zero V] in
/-- What was read goes to the queue of its port. -/
theorem delivered_eq (hlp : lp ≤ 16) (port : Fin lp)
    (hroom : ∀ v user, s.warpper.readValue = some (v, user) → user.toNat = port →
      (i.result port).accepts) :
    delivered s i port = s.warpper.readValue.bind fun x =>
      if x.2 = BitVec.ofNat 4 port then some x.1 else none := by
  rw [delivered]
  cases hread : s.warpper.readValue with
  | none => rfl
  | some x =>
    have huser : x.2.toNat = port ↔ x.2 = BitVec.ofNat 4 port := by
      have hlt : port.val < 2 ^ 4 := port.isLt.trans_le hlp
      rw [← BitVec.toNat_inj, BitVec.toNat_ofNat, Nat.mod_eq_of_lt hlt]
    have haccepts := hroom x.1 x.2 hread
    by_cases hx : x.2 = BitVec.ofNat 4 port
    · rw [bind_some, bind_some, if_pos hx, if_pos ⟨huser.mpr hx, haccepts (huser.mpr hx)⟩]
    · simp [hx, mt huser.mp hx]

/-- The lookup in the match stage reads the value of its key. -/
theorem Inv.readNext_eq (hinv : Inv h s) (hok : Served s i) (user : BitVec 4) :
    (s.warpper.readNext.bind fun x => if x.2 = user then some x.1 else none) =
      (s.warpper.result.bind (Req.asLookup user)).map s.warpper.value := by
  cases hres : s.warpper.result with
  | none => simp [readNext, hres]
  | some r =>
    cases r with
    | update key v => simp [readNext, hres, Req.asLookup]
    | lookup key u =>
      rw [hinv.store.readNext_eq hres (hok.read key u hres) (hok.miss key u hres)]
      by_cases hu : u = user <;> simp [Req.asLookup, hu]

theorem Inv.answers_next (hlp : lp ≤ 16) (hinv : Inv h s) (hok : Served s i) (port : Fin lp) :
    ((output s i).response port).toList ++ answers (next s i) port =
      answers s port ++ (((s.warpper.taken (warpperInputs s i)).bind
        (Req.asLookup (BitVec.ofNat 4 port))).map (next s i).warpper.value).toList := by
  have hq := popped_append_next (i.result port).shows (i.result port).ready
    (s.results port) (delivered s i port)
  have hread : ((next s i).warpper.readValue.bind fun x =>
      if x.2 = BitVec.ofNat 4 port then some x.1 else none) =
      (s.warpper.result.bind (Req.asLookup (BitVec.ofNat 4 port))).map s.warpper.value :=
    hinv.readNext_eq hok (BitVec.ofNat 4 port)
  rw [answers, hread, answers,
    ← delivered_eq hlp port fun v user hread => hok.room v user hread port]
  exact append_of_append_eq hq rfl rfl

/-- A request in the match stage, and the value of a key for which no update waits. -/
theorem Inv.value_step (hcard : (keysOf (updatesOf h)).card ≤ 2 ^ w) (hinv : Inv h s)
    (hok : Served s i) {key : K} (hkey : key ∉ (waitingUpdates (next s i)).map Prod.fst) :
    latest (updatesOf h ++ (output s i).updates) key = (next s i).warpper.value key := by
  have hperm := waitingUpdates_next s i
  have hvalue : (next s i).warpper.value key = _ :=
    hinv.store.value_next (i := warpperInputs s i) hcard hok.idle key
  have hother : (∀ v, (key, v) ∉ ((s.warpper.taken (warpperInputs s i)).bind
      Req.asUpdate).toList) → latest (updatesOf h ++ (output s i).updates) key =
        s.warpper.value key := by
    intro htaken
    have hnot : key ∉ (waitingUpdates s ++ (output s i).updates).map Prod.fst := by
      rw [← (hperm.map Prod.fst).mem_iff, map_append, mem_append, not_or]
      refine ⟨fun hmem => ?_, hkey⟩
      obtain ⟨⟨k, v⟩, hv, rfl⟩ := mem_map.mp hmem
      exact htaken v hv
    rw [map_append, mem_append, not_or] at hnot
    rw [latest_append_of_notMem hnot.2, hinv.value key hnot.1]
  rw [hvalue]
  cases htaken : (s.warpper.taken (warpperInputs s i)).bind Req.asUpdate with
  | none => exact hother (by simp [htaken])
  | some x =>
    obtain ⟨k, v⟩ := x
    by_cases hk : k = key
    · subst hk
      rw [htaken] at hperm
      have hmem := hperm.subset (mem_append_left _ (mem_singleton_self (k, v)))
      simpa using hinv.newest_step hok hmem
    · simpa [hk] using hother (by simp [htaken, Ne.symm hk])

theorem inv_step (hlp : lp ≤ 16) (hcard : (keysOf (updatesOf h)).card ≤ 2 ^ w) (hinv : Inv h s)
    (hok : Served s i) : Inv (h ++ [(i, output s i)]) (next s i) := by
  have hperm := waitingUpdates_next s i
  have hlks := waitingLookups_next hlp s i
  have hmem : ∀ x ∈ waitingUpdates (next s i), x ∈ waitingUpdates s ++ (output s i).updates :=
    fun x hx => hperm.subset (mem_append_right _ hx)
  have hacc : ∀ x ∈ waitingUpdates s ++ (output s i).updates,
      x ∈ updatesOf h ++ (output s i).updates := by
    intro x hx
    rcases mem_append.mp hx with hx | hx
    · exact mem_append_left _ (hinv.accepted x hx)
    · exact mem_append_right _ hx
  -- no update of a key whose lookup waits has been accepted
  have hapart : ∀ port, ∀ key ∈ waitingLookups s port ++ (i.lookup port).pushed.toList,
      key ∉ (waitingUpdates s ++ (output s i).updates).map Prod.fst := by
    intro port key hkey
    rw [map_append, mem_append, not_or]
    refine ⟨?_, hok.apart port key hkey⟩
    rcases mem_append.mp hkey with hkey | hkey
    · exact hinv.apart port key hkey
    · exact hok.lookedUp port key (mem_toList.mp hkey)
  have hlatest : ∀ port, ∀ key ∈ waitingLookups s port ++ (i.lookup port).pushed.toList,
      latest (updatesOf h ++ (output s i).updates) key = latest (updatesOf h) key :=
    fun port key hkey => latest_append_of_notMem (hok.apart port key hkey)
  have hwaits : ∀ port, ∀ key ∈ waitingLookups (next s i) port,
      key ∈ waitingLookups s port ++ (i.lookup port).pushed.toList := by
    intro port key hkey
    rw [← hlks port]
    exact mem_append_right _ hkey
  rw [← updatesOf_concat h i (output s i)] at hacc
  constructor
  · refine hinv.store.next hcard hok.idle ?_ ?_
    · rw [updatesOf_concat]
      exact keysOf_subset_append _ _
    · intro key v htaken
      rw [htaken] at hperm
      have hx := hacc _ (hperm.subset (mem_append_left _ (mem_singleton_self _)))
      rw [keysOf, List.mem_toFinset]
      exact mem_map_of_mem hx
  · exact fun x hx => hacc x (hmem x hx)
  · intro x hx
    rw [updatesOf_concat]
    exact hinv.newest_step hok (hmem x hx)
  · intro key hkey
    rw [updatesOf_concat]
    exact hinv.value_step hcard hok hkey
  · intro port key hkey hupd
    obtain ⟨x, hx, rfl⟩ := mem_map.mp hupd
    exact hapart port _ (hwaits port _ hkey) (mem_map_of_mem (hmem x hx))
  · intro port
    have htaken : ∀ key ∈ ((s.warpper.taken (warpperInputs s i)).bind
        (Req.asLookup (BitVec.ofNat 4 port))).toList,
        latest (updatesOf h) key = (next s i).warpper.value key := by
      intro key hkey
      have hkey := mem_append_left (waitingLookups (next s i) port) hkey
      rw [hlks port] at hkey
      rw [← hlatest port key hkey]
      refine hinv.value_step hcard hok fun hupd => ?_
      obtain ⟨x, hx, rfl⟩ := mem_map.mp hupd
      exact hapart port _ hkey (mem_map_of_mem (hmem x hx))
    have hexpected : expected port (h ++ [(i, output s i)]) = _ :=
      expectedFrom_concat port [] h i (output s i)
    have hanswers := hinv.answers_next hlp hok port
    rw [toList_map, ← map_congr_left htaken] at hanswers
    rw [nil_append, toList_map] at hexpected
    have hresps : responses port (h ++ [(i, output s i)]) =
        responses port h ++ ((output s i).response port).toList :=
      Circuit.transfers_concat _ h i (output s i)
    calc expected port (h ++ [(i, output s i)])
        = responses port h ++ answers s port ++ (waitingLookups s port ++
            (i.lookup port).pushed.toList).map (latest (updatesOf h)) := by
          rw [hexpected, map_append, ← append_assoc, ← hinv.answered port]
          rfl
      _ = responses port h ++ (((output s i).response port).toList ++ answers (next s i) port) ++
            (waitingLookups (next s i) port).map (latest (updatesOf h)) := by
          rw [hanswers, ← hlks port, map_append]
          simp only [append_assoc]
      _ = _ := by
          rw [hresps, updatesOf_concat,
            map_congr_left fun key hkey => hlatest port key (hwaits port key hkey)]
          simp only [append_assoc]

theorem waitingUpdates_init : waitingUpdates (table w up lp K V).init = [] := by
  simp [waitingUpdates, table, init]

theorem inv_init : Inv [] (table w up lp K V).init where
  store := {
    free := ⟨0, Nat.zero_le _, rfl, fun _ => by simp [table, init]⟩
    distinct := fun _ _ _ h => by cases h
    known := fun _ _ h => by cases h
    compared := fun _ h => by cases h
    pending := fun _ _ h => by cases h }
  accepted x hx := by
    rw [waitingUpdates_init] at hx
    cases hx
  newest x hx := by
    rw [waitingUpdates_init] at hx
    cases hx
  value key _ := by
    have hnone : compare (w := w) (fun _ => none) key = none :=
      compare_eq_none.mpr fun _ => (some_ne_none key).symm
    simp [value, stored, table, init, latest, updatesOf, hnone]
  apart port key hkey := by cases hkey
  answered port := rfl

theorem inv_run (hlp : lp ≤ 16) {inputs : List (Inputs up lp K V)}
    (hok : (table w up lp K V).Along Served inputs) :
    (keysOf (updatesOf ((table w up lp K V).trace inputs))).card ≤ 2 ^ w →
      Inv ((table w up lp K V).trace inputs) ((table w up lp K V).run inputs) := by
  refine Circuit.invariant (P := fun h s => (keysOf (updatesOf h)).card ≤ 2 ^ w → Inv h s)
    ?_ ?_ hok
  · exact fun _ => inv_init
  · intro h s i hinv hok hcard
    rw [updatesOf_concat] at hcard
    have hcard := (Finset.card_le_card (keysOf_subset_append _ _)).trans hcard
    exact inv_step hlp hcard (hinv hcard) hok

end Run

end Alkali.Fpga.CamArbiter
