import Alkali.Fpga.AtomCam

/-!
# When `atom_CAM` is a table

The entries of a table are compared with the slots of the `CAM` cycle by cycle. An update that
is executed changes all entries of one slot by the value on the wires, so it is right if the key
on the wires is its own, alone in its slot, and the value on the wires is the change.
-/

namespace Alkali.Fpga.AtomCam

open Synchronous List Circuit Fifo Option

variable {kw vw : Nat}

/-! ## Slots -/

section Slots

variable {s : Cam} {i : Inputs kw vw}

/-- The keys of a reset `CAM` are zero. -/
def NoKeys (s : Cam) : Prop := ∀ slot, s.keys slot = 0

theorem keys_next (s : Cam) (i : Inputs kw vw) : (s.next (toCam i)).keys = s.keys := by
  simp [Cam.next, Cam.nextKeys, toCam]

theorem noKeys_run (inputs : List (Inputs kw vw)) : NoKeys ((atomCam kw vw).run inputs) :=
  Circuit.invariant (P := fun _ s => NoKeys s) (fun _ => rfl)
    (fun _ s i hinv _ slot => (congrFun (keys_next s i) slot).trans (hinv slot))
    (along_true inputs)

theorem index_of_noKeys (h : NoKeys s) (key : BitVec 8) :
    s.index key = if key = 0 then 0 else 3 := by
  simp only [Cam.index, h _, eq_comm]
  split <;> rfl

theorem setWidth_eq_zero {m n : Nat} (h : m ≤ n) {x : BitVec m} : x.setWidth n = 0 ↔ x = 0 := by
  rw [← BitVec.toNat_inj, ← BitVec.toNat_inj, BitVec.toNat_setWidth_of_le h]
  simp

theorem setWidth_setWidth_self {m n : Nat} (h : m ≤ n) (x : BitVec m) :
    (x.setWidth n).setWidth m = x := by
  rw [← BitVec.toNat_inj, BitVec.toNat_setWidth, BitVec.toNat_setWidth_of_le h,
    Nat.mod_eq_of_lt x.isLt]

/-- Two keys have the same slot. -/
def SameSlot (key key' : BitVec kw) : Prop := key = 0 ↔ key' = 0

instance (key key' : BitVec kw) : Decidable (SameSlot key key') :=
  inferInstanceAs (Decidable (_ ↔ _))

theorem index_eq_iff (h : NoKeys s) (hkw : kw ≤ 8) (key key' : BitVec kw) :
    s.index (key.setWidth 8) = s.index (key'.setWidth 8) ↔ SameSlot key key' := by
  rw [index_of_noKeys h, index_of_noKeys h]
  simp only [setWidth_eq_zero hkw, SameSlot]
  by_cases h0 : key = 0 <;> by_cases h1 : key' = 0 <;> simp only [h0, h1] <;> decide

/-- An update that is executed adds the value on the wires to all entries in the slot of the key
on the wires. -/
theorem entry_next (h : NoKeys s) (hkw : kw ≤ 8) (hvw : vw ≤ 32) (key : BitVec kw) :
    entry (s.next (toCam i)) key = (entry s key : BitVec vw) +
      if (s.written (toCam i)).isSome ∧ SameSlot key i.updateIndex.payload then
        i.updateData.payload else 0 := by
  have hidx : (s.next (toCam i)).index = s.index := by
    funext key
    rw [Cam.index, keys_next]
    rfl
  have hvalue := setWidth_setWidth_self hvw i.updateData.payload
  rw [entry, entry, hidx]
  change (s.nextValues (toCam i) _).setWidth vw = _
  cases hfire : (s.written (toCam i)).isSome with
  | false => simp [Cam.nextValues, Cam.writeCmdFire, hfire]
  | true =>
    have hvals : s.nextValues (toCam i) = Function.update s.values
        (s.index (i.updateIndex.payload.setWidth 8))
        (s.values (s.index (i.updateIndex.payload.setWidth 8)) +
          i.updateData.payload.setWidth 32) := by
      simp only [Cam.nextValues, Cam.writeCmdFire, hfire]
      rfl
    rw [hvals, Function.update_apply]
    simp only [index_eq_iff h hkw, true_and]
    split
    · rename_i hsame
      rw [BitVec.setWidth_add _ _ hvw, hvalue, (index_eq_iff h hkw _ _).mpr hsame]
    · exact (BitVec.add_zero _).symm

end Slots

/-! ## Queues -/

section Queues

variable {h : List (Inputs kw vw × Outputs kw vw)} {s : Cam} {i : Inputs kw vw}

theorem map_fst_written (s : Cam) (i : Cam.Inputs) : (s.written i).map Prod.fst =
    popped i.key.shows (s.writeCmdFire i) s.keyFifo := by
  rw [Cam.writeCmdFire, Cam.written, popped]
  split <;> simp_all

theorem map_snd_written (s : Cam) (i : Cam.Inputs) : (s.written i).map Prod.snd =
    popped i.value.shows (s.writeCmdFire i) s.valueFifo := by
  rw [Cam.writeCmdFire, Cam.written, popped]
  split <;> simp_all

/-- What has been accepted has been executed or waits, and the keys of lookups that wait are no
wider than those of the table. -/
structure Queued (h : List (Inputs kw vw × Outputs kw vw)) (s : Cam) : Prop where
  keys : transfers (fun i _ => i.updateIndex.pushed) h =
    (writes h).map Prod.fst ++ s.keyFifo.map (BitVec.setWidth kw)
  values : transfers (fun i _ => i.updateData.pushed) h =
    (writes h).map Prod.snd ++ s.valueFifo.map (BitVec.setWidth vw)
  lookups : transfers (fun i _ => i.lookupIndex.pushed) h =
    (transfers (fun _ o => o.response) h).map Prod.fst ++ s.readFifo.map (BitVec.setWidth kw)
  narrow : ∀ x ∈ s.readFifo, (x.setWidth kw).setWidth 8 = x

/-- A queue whose entries are wider outside than inside. -/
theorem queue_widen {m n : Nat} (hmn : m ≤ n) {accepted taken : List (BitVec m)}
    {q : List (BitVec n)} (hq : accepted = taken ++ q.map (BitVec.setWidth m)) (l : Line (BitVec m))
    (ready : Bool) : accepted ++ l.pushed.toList =
      taken ++ ((popped l.shows ready q).map (BitVec.setWidth m)).toList ++
        (Fifo.next l.shows ready q (l.map (BitVec.setWidth n)).pushed).map (BitVec.setWidth m) := by
  have hpushed : ((l.map (BitVec.setWidth n)).pushed.toList).map (BitVec.setWidth m) =
      l.pushed.toList := by
    rw [Line.pushed_map, ← Option.toList_map, Option.map_map]
    have hid : BitVec.setWidth m ∘ BitVec.setWidth n = (id : BitVec m → BitVec m) :=
      funext (setWidth_setWidth_self hmn)
    rw [hid, Option.map_id, id]
  have hqueue := congrArg (List.map (BitVec.setWidth m))
    (popped_append_next l.shows ready q (l.map (BitVec.setWidth n)).pushed)
  rw [map_append, map_append, hpushed] at hqueue
  rw [hq, append_assoc, append_assoc, ← hqueue, toList_map]

theorem map_writes_concat {β γ : Type} (f : BitVec kw × BitVec vw → β)
    (g : BitVec 8 × BitVec 32 → γ) (widen' : γ → β) (hf : ∀ x, f (widen x) = widen' (g x))
    (o : Option (BitVec 8 × BitVec 32)) {q : Option γ} (hq : o.map g = q) (xs : List β) :
    xs ++ ((o.map widen).toList).map f = xs ++ (q.map widen').toList := by
  subst hq
  cases o <;> simp [hf]

theorem queued_step (hkw : kw ≤ 8) (hvw : vw ≤ 32) (hinv : Queued h s) :
    Queued (h ++ [(i, (atomCam kw vw).output s i)]) (s.next (toCam i)) := by
  have hresp : (s.response (toCam i)).map Prod.fst =
      popped i.lookupIndex.shows i.valueReady s.readFifo := by
    change (Option.map _ (popped i.lookupIndex.shows i.valueReady s.readFifo)).map _ = _
    cases popped i.lookupIndex.shows i.valueReady s.readFifo <;> rfl
  refine ⟨?_, ?_, ?_, fun x hx => ?_⟩
  · rw [transfers_concat, writes, transfers_concat, map_append,
      queue_widen hkw hinv.keys _ (s.writeCmdFire (toCam i))]
    exact congrArg (· ++ _) (map_writes_concat Prod.fst Prod.fst _ (fun _ => rfl) _
      (map_fst_written s (toCam i)) _).symm
  · rw [transfers_concat, writes, transfers_concat, map_append,
      queue_widen hvw hinv.values _ (s.writeCmdFire (toCam i))]
    exact congrArg (· ++ _) (map_writes_concat Prod.snd Prod.snd _ (fun _ => rfl) _
      (map_snd_written s (toCam i)) _).symm
  · rw [transfers_concat, transfers_concat, map_append, queue_widen hkw hinv.lookups _ i.valueReady]
    exact congrArg (· ++ _) (map_writes_concat Prod.fst Prod.fst _ (fun _ => rfl) _
      hresp _).symm
  · have hmem : x ∈ s.readFifo ∨ x ∈ (i.lookupIndex.map (BitVec.setWidth 8)).pushed := by
      rcases mem_append.mp hx with hx | hx
      · refine Or.inl ?_
        split at hx
        · exact mem_of_mem_tail hx
        · exact hx
      · exact Or.inr (mem_toList.mp hx)
    rcases hmem with hmem | hmem
    · exact hinv.narrow x hmem
    · rw [Line.pushed_map] at hmem
      obtain ⟨key, -, rfl⟩ := mem_map.mp hmem
      rw [setWidth_setWidth_self hkw]

theorem queued_run (hkw : kw ≤ 8) (hvw : vw ≤ 32) (inputs : List (Inputs kw vw)) :
    Queued ((atomCam kw vw).trace inputs) ((atomCam kw vw).run inputs) := by
  refine Circuit.invariant (P := Queued) ⟨rfl, rfl, rfl, fun x hx => ?_⟩
    (fun _ _ _ hinv _ => queued_step hkw hvw hinv) (along_true inputs)
  cases hx

/-- The requests are always executed in order. -/
theorem Queued.inOrder (hinv : Queued h s) : InOrder h := by
  refine ⟨?_, hinv.lookups ▸ prefix_append _ _⟩
  have hzip : ((writes h).map Prod.fst).zip ((writes h).map Prod.snd) = writes h := by
    rw [zip_map', map_id'']
    exact fun _ => rfl
  rw [updates, hinv.keys, hinv.values, zip_append (by simp), hzip]
  exact prefix_append _ _

end Queues

/-! ## Runs -/

section Runs

variable {s : Cam} {i : Inputs kw vw} {atomic : Bool}

theorem alone_iff {key : BitVec kw} : Alone key ↔ ∀ key', SameSlot key' key → key' = key := by
  by_cases hzero : key = 0
  · exact iff_of_true (Or.inl hzero) fun key' hsame => (hsame.mpr hzero).trans hzero.symm
  · refine ⟨fun h key' hsame => ?_, fun h => Or.inr fun key' hne => ?_⟩
    · exact (h.resolve_left hzero) key' (mt hsame.mp hzero)
    · exact h key' (iff_of_false hne hzero)

/-- The change of a slot is the change of one entry. -/
theorem delta_iff {key onWires : BitVec kw} {change added : BitVec vw} :
    (∀ key', (if SameSlot key' onWires then added else 0) = if key' = key then change else 0) ↔
      added = change ∧ (added = 0 ∨ onWires = key ∧ Alone key) := by
  constructor
  · intro h
    have hkey := h key
    have hwires := h onWires
    rw [if_pos rfl] at hkey
    have hself : SameSlot onWires onWires := Iff.rfl
    rw [if_pos hself] at hwires
    by_cases hsame : SameSlot key onWires
    · rw [if_pos hsame] at hkey
      refine ⟨hkey, or_iff_not_imp_left.mpr fun hne => ?_⟩
      have hall : ∀ key', SameSlot key' onWires → key' = key := by
        intro key' hsame'
        have hk := h key'
        rw [if_pos hsame'] at hk
        by_contra hcon
        rw [if_neg hcon] at hk
        exact hne hk
      exact ⟨hall onWires hself, alone_iff.mpr fun key' hs => hall key' (hs.trans hsame)⟩
    · rw [if_neg hsame] at hkey
      have hadded : added = 0 := by
        rw [hwires, ← hkey, ite_self]
      exact ⟨hadded.trans hkey, Or.inl hadded⟩
  · rintro ⟨rfl, hzero | ⟨rfl, halone⟩⟩ key'
    · rw [hzero, ite_self, ite_self]
    · have hiff : SameSlot key' onWires ↔ key' = onWires :=
        ⟨alone_iff.mp halone key', fun heq => heq ▸ Iff.rfl⟩
      simp only [hiff]

theorem tableOf_concat (is : List (Inputs kw vw)) (i : Inputs kw vw) :
    tableOf ((atomCam kw vw).trace (is ++ [i])) atomic =
      match (((atomCam kw vw).run is).written (toCam i)).map widen with
      | none => tableOf ((atomCam kw vw).trace is) atomic
      | some x => applyUpdate atomic (tableOf ((atomCam kw vw).trace is) atomic) x := by
  rw [tableOf, writes, trace_concat, transfers_concat, foldl_append]
  change List.foldl _ _ ((((atomCam kw vw).run is).written (toCam i)).map widen).toList = _
  cases (((atomCam kw vw).run is).written (toCam i)).map widen <;> rfl

/-- An update adds its change to its entry. -/
theorem applyUpdate_eq (table : BitVec kw → BitVec vw) (x : BitVec kw × BitVec vw)
    (key : BitVec kw) : applyUpdate atomic table x key = table key +
      if key = x.1 then (if atomic then x.2 else x.2 - table x.1) else 0 := by
  rw [applyUpdate, Function.update_apply]
  by_cases hkey : key = x.1
  · rw [if_pos hkey, if_pos hkey, hkey]
    cases atomic with
    | true => rfl
    | false =>
      change x.2 = table x.1 + (x.2 - table x.1)
      rw [BitVec.add_comm, BitVec.sub_add_cancel]
  · rw [if_neg hkey, if_neg hkey]
    exact (BitVec.add_zero _).symm

/-- The entries are right. -/
abbrev Entries (atomic : Bool) (is : List (Inputs kw vw)) : Prop :=
  ∀ key, entry ((atomCam kw vw).run is) key = tableOf ((atomCam kw vw).trace is) atomic key

variable {is : List (Inputs kw vw)}

/-- The entries are right after a cycle if and only if the update of the cycle is. -/
theorem entries_next_iff (hkw : kw ≤ 8) (hvw : vw ≤ 32) (hents : Entries atomic is) :
    Entries atomic (is ++ [i]) ↔
      ∀ key value, (((atomCam kw vw).run is).written (toCam i)).map widen = some (key, value) →
        i.updateData.payload =
            (if atomic then value else value - entry ((atomCam kw vw).run is) key) ∧
          (i.updateData.payload = 0 ∨ i.updateIndex.payload = key ∧ Alone key) := by
  have hnoKeys := noKeys_run is
  rw [Entries, tableOf_concat, run_concat]
  change (∀ key, entry (((atomCam kw vw).run is).next (toCam i)) key = _) ↔ _
  simp only [entry_next hnoKeys hkw hvw]
  cases hwr : ((atomCam kw vw).run is).written (toCam i) with
  | none => simp [hents]
  | some x =>
    generalize hx : (widen x : BitVec kw × BitVec vw) = y
    obtain ⟨key, value⟩ := y
    simp only [map_some, hx, isSome_some, true_and, applyUpdate_eq, hents,
      BitVec.add_right_inj, delta_iff, some_inj, Prod.mk.injEq]
    refine ⟨fun h key' value' => ?_, fun h => h key value ⟨rfl, rfl⟩⟩
    rintro ⟨rfl, rfl⟩
    exact h

theorem mem_of_popped {α : Type} {shows ready : Bool} {q : List α} {x : α}
    (h : popped shows ready q = some x) : x ∈ q := by
  rw [popped] at h
  split at h
  · rw [front_eq_some h]
    exact mem_cons_self
  · cases h

/-- A lookup of the key on the wires gets the value on the wires if an update is executed. -/
theorem setWidth_readValue (hkw : kw ≤ 8) (hvw : vw ≤ 32) {key : BitVec 8}
    (hnarrow : (key.setWidth kw).setWidth 8 = key) :
    (s.readValue (toCam i) key).setWidth vw =
      if (s.written (toCam i)).isSome ∧ key.setWidth kw = i.updateIndex.payload then
        i.updateData.payload else entry s (key.setWidth kw) := by
  have hpayload : i.updateIndex.payload.setWidth 8 = key ↔
      key.setWidth kw = i.updateIndex.payload := by
    constructor
    · rintro rfl
      exact setWidth_setWidth_self hkw _
    · rintro hkey
      rw [← hkey, hnarrow]
  have hiff : (s.writeCmdFire (toCam i) && (toCam i).key.payload == key) = true ↔
      (s.written (toCam i)).isSome ∧ key.setWidth kw = i.updateIndex.payload := by
    rw [Bool.and_eq_true, beq_iff_eq, ← hpayload]
    rfl
  rw [Cam.readValue, entry, hnarrow]
  simp only [hiff]
  split
  · exact setWidth_setWidth_self hvw _
  · rfl

/-- A response is the entry before or after the update of its cycle if and only if it does not
come from the wires, or the entry is zero or what the wires carry. -/
theorem response_iff (hkw : kw ≤ 8) (hvw : vw ≤ 32) (hents : Entries atomic is)
    (hnext : Entries atomic (is ++ [i])) :
    (∀ key value, ((atomCam kw vw).output ((atomCam kw vw).run is) i).response =
        some (key, value) → value = tableOf ((atomCam kw vw).trace is) atomic key ∨
          value = tableOf ((atomCam kw vw).trace (is ++ [i])) atomic key) ↔
      ((((atomCam kw vw).run is).written (toCam i)).isSome →
        ∀ x ∈ ((atomCam kw vw).run is).response (toCam i), x.1.setWidth kw = i.updateIndex.payload →
            entry ((atomCam kw vw).run is) i.updateIndex.payload = (0 : BitVec vw) ∨
              entry ((atomCam kw vw).run is) i.updateIndex.payload = i.updateData.payload) := by
  have hqueued := queued_run hkw hvw is
  have hoff := entry_next (i := i) (noKeys_run is) hkw hvw i.updateIndex.payload
  have hself : SameSlot i.updateIndex.payload i.updateIndex.payload := Iff.rfl
  simp only [← hents, ← hnext, run_concat]
  change (∀ key value, (((atomCam kw vw).run is).response (toCam i)).map widen = some (key, value) →
    value = _ ∨ value = entry (((atomCam kw vw).run is).next (toCam i)) key) ↔ _
  generalize (atomCam kw vw).run is = s at *
  cases hresp : s.response (toCam i) with
  | none => simp
  | some x =>
    obtain ⟨key, hpopped, rfl⟩ := map_eq_some_iff.mp hresp
    have hnarrow := hqueued.narrow key (mem_of_popped hpopped)
    have hread := setWidth_readValue (s := s) (i := i) hkw hvw hnarrow
    simp only [map_some, widen, hread, some_inj, Prod.mk.injEq, and_imp, forall_eq', mem_def]
    by_cases hwires : (s.written (toCam i)).isSome ∧ key.setWidth kw = i.updateIndex.payload
    · rw [if_pos hwires]
      rw [if_pos ⟨hwires.1, hself⟩] at hoff
      have hcases : (entry s i.updateIndex.payload = (0 : BitVec vw) ∨
          entry s i.updateIndex.payload = i.updateData.payload) ↔
            i.updateData.payload = entry s i.updateIndex.payload ∨
              i.updateData.payload = entry (s.next (toCam i)) i.updateIndex.payload := by
        rw [hoff, BitVec.self_eq_add_left, or_comm]
        exact or_congr_left eq_comm
      rw [hcases]
      constructor
      · exact fun h _ hkey => h _ _ hkey rfl
      · rintro h _ _ hkey rfl
        rw [← hkey, hwires.2]
        exact h hwires.1 hwires.2
    · rw [if_neg hwires]
      refine iff_of_true ?_ fun hfire hkey => absurd ⟨hfire, hkey⟩ hwires
      rintro _ _ rfl rfl
      exact Or.inl rfl

/-- The table has its meaning in a run if and only if every step is sound. -/
theorem meaning_iff (hkw : kw ≤ 8) (hvw : vw ≤ 32) (inputs : List (Inputs kw vw)) :
    Meaning kw vw atomic inputs ↔ (atomCam kw vw).Along (Sound atomic) inputs := by
  have hord := (queued_run hkw hvw inputs).inOrder
  rw [Meaning, and_iff_right hord]
  refine (along_iff (fun key => ?_) (fun is i hents => ?_) inputs).symm
  · rw [entry, index_of_noKeys fun _ => rfl]
    exact BitVec.setWidth_zero _ _
  · constructor
    · intro hsound
      have hnext := (entries_next_iff hkw hvw hents).mpr hsound.update
      exact ⟨hnext, (response_iff hkw hvw hents hnext).mpr hsound.lookup⟩
    · rintro ⟨hnext, hresp⟩
      exact ⟨(entries_next_iff hkw hvw hents).mp hnext, (response_iff hkw hvw hents hnext).mp hresp⟩

/-- The ports carry the keys and the values if they are wide enough. -/
theorem carries_iff : Carries kw vw ↔ kw ≤ 8 ∧ vw ≤ 32 := by
  have hwidth : ∀ m n : Nat, (∀ x : BitVec m, (x.setWidth n).setWidth m = x) ↔ m ≤ n := by
    intro m n
    refine ⟨fun h => ?_, fun h => setWidth_setWidth_self h⟩
    have hbit := congrArg (BitVec.getLsbD · n) (h (BitVec.allOnes m))
    simpa using hbit
  exact and_congr (hwidth kw 8) (hwidth vw 32)

end Runs

end Alkali.Fpga.AtomCam
