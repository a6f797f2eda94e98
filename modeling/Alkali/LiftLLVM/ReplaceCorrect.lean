import Alkali.LiftLLVM.Replace

/-!
# Correctness of the operand replacement

The ends of all chains are tracked along the program: a store and a load merge
the chains of a slot and of a value. While every operation keeps to current
values, the end of the chain of a value is what the value denotes.
-/

namespace Alkali

open Chain StackSlotValue Function Aliases SlotOp Outcome

/-- The value that all values linked to `v` forward to. -/
def Aliases.rep (l : Aliases) (v : Value) : Value := (l.last v).getD v

/-- What the operation does to the ends of the chains. -/
def SlotOp.merged (f : Value → Value) : SlotOp → Value → Value
  | store value addr => merge f addr value
  | load r addr => merge f r addr
  | _ => f

/-- The operation stores a value to its own chain. -/
def SlotOp.closes (f : Value → Value) : SlotOp → Prop
  | store value addr => f value = f addr ∧ value ≠ f addr
  | _ => False

/-- The table, the memory and the aliases after the operations of a list. -/
structure Forwards (pre : List SlotOp) (s : StackSlotValue) (m : SlotMemory) (l : Aliases) :
    Prop where
  ends : EndsAt s.next l.rep
  linked : ∀ v w, l.linked v w = true ↔ l.rep v = l.rep w
  mentions : Mentions pre s
  slots : ∀ a, .alloca a ∈ pre → s.updateTable a ≠ none
  keys : ∀ k w, s.updateTable k = some w → s.updateTable w ≠ none
  stored : ∀ o ∈ pre, ∀ a, o.written.map Prod.fst = some a → l.last a ≠ none ∧ m.mem a ≠ none
  plain : ∀ v, l.last v = none → m.val v = v

theorem forwards_nil : Forwards [] .empty .init .init where
  ends := fun v => .stop (next_of_none rfl)
  linked := by simp [Aliases.init, Aliases.rep]
  mentions := by simp [Mentions]
  slots := by simp
  keys := by simp
  stored := by simp
  plain := by simp [SlotMemory.init]

section Step

variable {pre : List SlotOp} {op : SlotOp} {s s' : StackSlotValue} {m : SlotMemory}
  {l : Aliases} {fuel : Nat}

theorem transfer_updateTable_ne_none {k : Value} (hk : s.updateTable k ≠ none)
    (hstep : op.transfer fuel s = .ok s') : s'.updateTable k ≠ none := by
  have hupd : ∀ (t : Value → Option Value) a w, t k ≠ none → update t a (some w) k ≠ none := by
    intro t a w ht
    by_cases ha : k = a
    · simp [ha]
    · simpa [update_of_ne ha] using ht
  obtain ⟨r, source, _, htr⟩ | ⟨addr, value, _, htr⟩ | ⟨_, _, htr⟩ := op.transfer_cases
  · rw [htr] at hstep
    obtain ⟨_, rfl⟩ := init_eq_ok hstep
    exact hupd _ _ _ hk
  · rw [htr] at hstep
    obtain ⟨tail, _, ⟨_, rfl⟩ | ⟨_, rfl⟩⟩ := update_eq_ok hstep
    · exact hk
    · simp only [tryEmplace]
      split_ifs
      · exact hupd _ _ _ (hupd _ _ _ hk)
      · exact hupd _ _ _ hk
  · rw [htr] at hstep
    cases hstep
    exact hk

theorem SlotOp.merged_congr {f : Value → Value} {v w : Value} (h : f v = f w) :
    op.merged f v = op.merged f w := by
  cases op with
  | store | load => simp only [merged, merge, h]
  | alloca | other | init | assign | cast => exact h

namespace Forwards

variable (h : Forwards pre s m l)
include h

theorem current_iff {v : Value} : l.current m v ↔ l.rep v = m.val v := by
  simp only [current, rep]
  cases hv : l.last v with
  | none => simp [h.plain v hv]
  | some w => simp

/-- The chain of a slot ends in an entry of the table. -/
theorem self_of_slot {a : Value} (ha : .alloca a ∈ pre) :
    s.updateTable (l.rep a) = some (l.rep a) := by
  have hkey : ∀ v r, Ends s.next v r → s.updateTable v ≠ none → s.updateTable r ≠ none := by
    intro v r hends
    induction hends with
    | stop _ => exact id
    | step hv _ ih => exact fun _ => ih (h.keys _ _ (next_eq_some.mp hv).1)
  obtain ⟨w, hw⟩ := Option.ne_none_iff_exists'.mp (hkey a _ (h.ends a) (h.slots a ha))
  rw [hw, next_eq_none.mp (h.ends a).stops w hw]

theorem rep_of_fresh {r v : Value} (hr : ¬ Occurs pre r) (hv : l.rep v = r) : v = r :=
  h.mentions.eq_of_ends hr (hv ▸ h.ends v)

theorem rep_fresh {r : Value} (hr : ¬ Occurs pre r) : l.rep r = r := by
  refine (h.ends r).unique (.stop (next_of_none ?_))
  by_contra hsome
  obtain ⟨w, hw⟩ := Option.ne_none_iff_exists'.mp hsome
  exact hr (h.mentions r w hw).1

theorem next_store {value addr : Value}
    (ha : .alloca addr ∈ pre) (hstep : (store value addr).transfer fuel s = .ok s') :
    s'.next = if value = l.rep addr then s.next else link s.next (l.rep addr) value := by
  obtain ⟨tail, htail, hcase⟩ := update_eq_ok hstep
  obtain rfl := htail.unique (h.ends addr)
  rcases hcase with ⟨hnot, _⟩ | ⟨hself, rfl⟩
  · exact absurd (h.self_of_slot ha) hnot
  · exact next_redirect _ value hself

theorem transfer_endsAt (hssa : Ssa (pre ++ [op]))
    (hin : op.inPlace pre) (hclose : ¬ op.closes l.rep)
    (hstep : op.transfer fuel s = .ok s') : EndsAt s'.next (op.merged l.rep) := by
  cases op with
  | alloca r =>
    have hnext := next_init hstep
    rw [if_pos rfl] at hnext
    exact hnext ▸ h.ends
  | store value addr =>
    have hnext := h.next_store hin.1 hstep
    simp only [closes, not_and, not_not] at hclose
    split_ifs at hnext with heq
    · have hrep : l.rep addr = l.rep value := by rw [heq, h.ends.idem]
      rw [hnext, merged, merge_of_eq hrep]
      exact h.ends
    · rw [hnext]
      exact h.ends.link (fun hrep => heq (hclose hrep))
  | load r addr =>
    obtain ⟨hfresh, hown⟩ := hssa.fresh (r := r) (by simp [results])
    have hr : l.rep r = r := h.rep_fresh hfresh
    have hne : addr ≠ r := fun heq => hown (by simp [operands, heq])
    have hnext := next_init hstep
    rw [if_neg hne] at hnext
    have hends := h.ends.link (a := r) (b := addr)
      (fun hrep => hne (h.rep_of_fresh hfresh (hrep.trans hr)))
    rw [hr] at hends
    exact hnext ▸ hends
  | other operands results =>
    cases hstep
    exact h.ends
  | init | assign | cast => exact hin.elim

variable {uses : Value → Value}

/-- The operands of an operation that closes a cycle lead into it. -/
theorem not_ends_of_closes (hin : op.inPlace pre) (hclose : op.closes l.rep)
    (hstep : op.transfer fuel s = .ok s') (huses : ∀ v, l.rep (uses v) = l.rep v)
    (args : List Value) : ¬ List.Forall₂ (Ends s'.next) (op.operands.map uses) args := by
  cases op with
  | store value addr =>
    intro hargs
    obtain ⟨r, _, hends, _⟩ := List.forall₂_cons_left_iff.mp hargs
    have hnext := h.next_store hin.1 hstep
    rw [if_neg hclose.2] at hnext
    rw [hnext] at hends
    have hrep : l.rep (uses value) = l.rep addr := (huses value).trans hclose.1
    refine hends.not_reaches_cyclic ((h.ends (uses value)).link_reaches hrep) ?_
    exact Ends.link_cyclic (hclose.1 ▸ h.ends value)
  | alloca | load | other | init | assign | cast => exact hclose.elim

theorem not_closes (hkeeps : l.keeps m op) : ¬ op.closes l.rep := by
  cases op with
  | store value addr =>
    rintro ⟨hrep, hne⟩
    have hval := h.current_iff.mp hkeeps.1
    have hlinked := hkeeps.2 ((h.linked value addr).mpr hrep)
    exact hne (by rw [← hrep, hval, hlinked])
  | alloca | load | other | init | assign | cast => exact id

theorem last_of_load {r addr : Value}
    (hin : (load r addr).inPlace pre) : l.last addr ≠ none ∧ m.mem addr ≠ none := by
  obtain ⟨_, o, ho, hwr⟩ := hin
  exact h.stored o ho addr hwr

theorem linked_step (v w : Value) :
    (l.step m op).linked v w = true ↔ op.merged l.rep v = op.merged l.rep w := by
  cases op with
  | store | load =>
    simp only [Aliases.step, Aliases.link, merged, Bool.or_eq_true, Bool.and_eq_true,
      h.linked, merge_eq_merge_iff, or_assoc]
  | alloca | other | init | assign | cast => exact h.linked v w

theorem rep_step (hssa : Ssa (pre ++ [op]))
    (hin : op.inPlace pre) (hkeeps : l.keeps m op) : (l.step m op).rep = op.merged l.rep := by
  cases op with
  | store value addr =>
    funext v
    have hval := h.current_iff.mp hkeeps.1
    have hlink : l.link addr value v addr = true ↔
        l.rep v = l.rep addr ∨ l.rep v = l.rep value := by
      simp only [Aliases.link, Bool.or_eq_true, Bool.and_eq_true, h.linked]
      grind
    simp only [rep, step, merged, merge] at hlink ⊢
    simp only [rep] at hval
    split_ifs <;> grind
  | load r addr =>
    funext v
    obtain ⟨hfresh, _⟩ := hssa.fresh (r := r) (by simp [results])
    obtain ⟨w, hw⟩ := Option.ne_none_iff_exists'.mp (h.last_of_load hin).1
    simp only [merged, merge, h.rep_fresh hfresh]
    by_cases hv : v = r
    · subst hv
      rw [if_pos (h.rep_fresh hfresh)]
      simp [rep, step, hw]
    · rw [if_neg (fun hrep => hv (h.rep_of_fresh hfresh hrep))]
      simp [rep, step, update_of_ne hv]
  | alloca | other => rfl
  | init | assign | cast => exact hin.elim

/-- Every entry of the table leads to an entry again. -/
theorem keys_transfer (hin : op.inPlace pre)
    (hstep : op.transfer fuel s = .ok s') (k w : Value) (hkw : s'.updateTable k = some w) :
    s'.updateTable w ≠ none := by
  rcases entry_of_transfer hstep hkw with hold | hinit | ⟨_, _, _, hw⟩
  · exact transfer_updateTable_ne_none (h.keys k w hold) hstep
  · cases op with
    | alloca r =>
      cases hinit
      rw [hkw]
      simp
    | load r addr =>
      cases hinit
      exact transfer_updateTable_ne_none (h.slots w hin.1) hstep
    | store | other => cases hinit
    | init | assign | cast => exact hin.elim
  · exact hw

theorem slots_transfer (hstep : op.transfer fuel s = .ok s')
    (a : Value) (ha : .alloca a ∈ pre ++ [op]) : s'.updateTable a ≠ none := by
  rcases List.mem_append.mp ha with ha | ha
  · exact transfer_updateTable_ne_none (h.slots a ha) hstep
  · obtain rfl := List.mem_singleton.mp ha
    obtain ⟨_, rfl⟩ := init_eq_ok hstep
    simp

theorem stored_step (hin : op.inPlace pre) (o : SlotOp)
    (ho : o ∈ pre ++ [op]) (a : Value) (ha : o.written.map Prod.fst = some a) :
    (l.step m op).last a ≠ none ∧ (m.step op).mem a ≠ none := by
  rcases List.mem_append.mp ho with ho | ho
  · obtain ⟨hlast, hmem⟩ := h.stored o ho a ha
    cases op with
    | store value addr =>
      simp only [Aliases.step, SlotMemory.step, update_apply]
      constructor
      · split_ifs
        · simp
        · exact hlast
      · split_ifs
        · simp
        · exact hmem
    | load r addr =>
      simp only [Aliases.step, SlotMemory.step, update_apply]
      refine ⟨?_, hmem⟩
      split_ifs
      · exact (h.last_of_load hin).1
      · exact hlast
    | alloca | other => exact ⟨hlast, hmem⟩
    | init | assign | cast => exact hin.elim
  · obtain rfl := List.mem_singleton.mp ho
    cases o with
    | store value addr =>
      simp only [written, Option.map_some, Option.some.injEq] at ha
      subst ha
      simp [Aliases.step, SlotMemory.step, Aliases.link, h.linked]
    | alloca | load | other => cases ha
    | init | assign | cast => exact hin.elim

theorem plain_step (hin : op.inPlace pre) (v : Value)
    (hv : (l.step m op).last v = none) : (m.step op).val v = v := by
  cases op with
  | store value addr =>
    simp only [step] at hv
    split_ifs at hv
    exact h.plain v hv
  | load r addr =>
    simp only [step, SlotMemory.step, update_apply] at hv ⊢
    split_ifs at hv with heq
    · exact absurd hv (h.last_of_load hin).1
    · rw [if_neg heq]
      exact h.plain v hv
  | alloca | other => exact h.plain v hv
  | init | assign | cast => exact hin.elim

/-- An operation that keeps to current values. -/
theorem step (hssa : Ssa (pre ++ [op]))
    (hin : op.inPlace pre) (hkeeps : l.keeps m op) (hstep : op.transfer fuel s = .ok s') :
    Forwards (pre ++ [op]) s' (m.step op) (l.step m op) where
  ends := by
    rw [h.rep_step hssa hin hkeeps]
    exact h.transfer_endsAt hssa hin (h.not_closes hkeeps) hstep
  linked := by
    rw [h.rep_step hssa hin hkeeps]
    exact h.linked_step
  mentions := h.mentions.transfer hstep
  slots := h.slots_transfer hstep
  keys := h.keys_transfer hin hstep
  stored := h.stored_step hin
  plain := h.plain_step hin

/-- The new operands are the expected ones exactly if the operation keeps to
current values. -/
theorem expected_iff_keeps (hin : op.inPlace pre) (hclose : ¬ op.closes l.rep) :
    op.operands.map (op.merged l.rep) = m.expected op ↔ l.keeps m op := by
  cases op with
  | alloca r => simp [SlotOp.operands, SlotMemory.expected, keeps]
  | store value addr =>
    have hvalue : merge l.rep addr value value = l.rep value := ite_self _
    have haddr : merge l.rep addr value addr = l.rep value := if_pos rfl
    simp only [SlotOp.operands, SlotOp.merged, SlotMemory.expected, List.map_cons, List.map_nil,
      hvalue, haddr, List.cons.injEq, and_true, and_self, keeps, h.current_iff, h.linked,
      SlotOp.closes, not_and, not_not] at hclose ⊢
    constructor
    · intro hval
      refine ⟨hval, ?_⟩
      intro hrep
      rw [← hval, hrep, ← hclose hrep]
    · exact And.left
  | load r addr =>
    have haddr : merge l.rep r addr addr = l.rep addr := ite_self _
    obtain ⟨hlast, hmem⟩ := h.last_of_load hin
    obtain ⟨w, hw⟩ := Option.ne_none_iff_exists'.mp hlast
    obtain ⟨u, hu⟩ := Option.ne_none_iff_exists'.mp hmem
    simp [SlotOp.operands, SlotOp.merged, SlotMemory.expected, keeps, haddr, rep, hw, hu]
  | other operands results =>
    simp [SlotOp.operands, SlotOp.merged, SlotMemory.expected, keeps, h.current_iff]
  | init | assign | cast => exact hin.elim

theorem uses_step (hin : op.inPlace pre) (hkeeps : l.keeps m op) (isPointer : Value → Bool)
    (huses : ∀ v, l.rep (uses v) = l.rep v) (v : Value) :
    op.merged l.rep (op.replaceAllUsesWith isPointer uses (m.expected op) v) =
      op.merged l.rep v := by
  have hold : op.merged l.rep (uses v) = op.merged l.rep v := merged_congr (huses v)
  cases op with
  | load r addr =>
    have haddr := (h.expected_iff_keeps hin id).mpr hkeeps
    simp only [SlotMemory.expected, operands, List.map_cons, List.map_nil] at haddr
    simp only [SlotMemory.expected, ← haddr, replaceAllUsesWith]
    split_ifs with hr
    · rw [← hold, hr.2]
      simp only [merged, merge, ite_self, h.ends.idem, if_true]
    · exact hold
  | store | alloca | other | init | assign | cast => exact hold

end Forwards

end Step

section Walk

variable {isPointer : Value → Bool} {ops : List SlotOp} {op : SlotOp} {s : StackSlotValue}
  {uses : Value → Value}

theorem replaceOperands_mono {n m : Nat} {out : List Replaced}
    (h : replaceOperands n isPointer ops s uses = .ok out) (hle : n ≤ m) :
    replaceOperands m isPointer ops s uses = .ok out := by
  induction ops generalizing s uses out with
  | nil => exact h
  | cons op ops ih =>
    obtain ⟨s', hs', hrest⟩ := bind_eq_ok.mp h
    refine bind_eq_ok.mpr ⟨s', transfer_mono hs' hle, ?_⟩
    split at hrest
    · cases hrest
    · next args hargs =>
        rw [show (op.operands.map uses).mapM (s'.lookup m) = some args from
          mapM_follow_mono hargs hle]
        obtain ⟨tail, htail, hout⟩ := bind_eq_ok.mp hrest
        exact bind_eq_ok.mpr ⟨tail, ih htail, hout⟩

theorem replaces_cons {args : List Value} {rest : List (List Value)} :
    Replaces isPointer (op :: ops) s uses (args :: rest) ↔
      ∃ s', (∃ fuel, op.transfer fuel s = .ok s') ∧
        List.Forall₂ (Ends s'.next) (op.operands.map uses) args ∧
        Replaces isPointer ops s' (op.replaceAllUsesWith isPointer uses args) rest := by
  constructor
  · rintro ⟨fuel, out, h, hout⟩
    obtain ⟨s', hs', hrest⟩ := bind_eq_ok.mp h
    split at hrest
    · cases hrest
    · next args' hargs =>
        obtain ⟨tail, htail, hcons⟩ := bind_eq_ok.mp hrest
        cases hcons
        obtain ⟨rfl, rfl⟩ := hout
        exact ⟨s', ⟨fuel, hs'⟩, exists_mapM_follow_iff.mp ⟨fuel, hargs⟩, fuel, tail, htail, rfl⟩
  · rintro ⟨s', ⟨n, hs'⟩, hargs, k, tail, htail, rfl⟩
    obtain ⟨m, hm⟩ := exists_mapM_follow_iff.mpr hargs
    refine ⟨max n (max m k), ⟨args, op.erased isPointer args⟩ :: tail, ?_, rfl⟩
    refine bind_eq_ok.mpr ⟨s', ?_, ?_⟩
    · rw [visit_empty]
      exact transfer_mono hs' (by omega)
    · rw [show (op.operands.map uses).mapM (s'.lookup (max n (max m k))) = some args from
        mapM_follow_mono hm (by omega)]
      exact bind_eq_ok.mpr ⟨tail, replaceOperands_mono htail (by omega), rfl⟩

theorem Forwards.replaces_iff {pre : List SlotOp} {m : SlotMemory} {l : Aliases}
    (h : Forwards pre s m l) (hssa : Ssa (pre ++ ops)) (hplace : AllInPlace pre ops)
    (huses : ∀ v, l.rep (uses v) = l.rep v) :
    Replaces isPointer ops s uses (m.expectedOperands ops) ↔ l.keepsAll m ops := by
  induction ops generalizing pre s m l uses with
  | nil => exact ⟨fun _ => trivial, fun _ => ⟨0, [], rfl, rfl⟩⟩
  | cons op ops ih =>
    obtain ⟨hin, hplace⟩ := hplace
    rw [List.append_cons] at hssa
    have hssa' : Ssa (pre ++ [op]) := hssa.of_turns (List.prefix_append ..)
    have hmap : ∀ {s' : StackSlotValue}, EndsAt s'.next (op.merged l.rep) → ∀ {args},
        List.Forall₂ (Ends s'.next) (op.operands.map uses) args ↔
          op.operands.map (op.merged l.rep) = args := by
      intro s' hends args
      have hcomp : op.merged l.rep ∘ uses = op.merged l.rep :=
        funext fun v => merged_congr (huses v)
      rw [hends.forall₂_iff, List.map_map, hcomp, eq_comm]
    have hstep_iff : ∀ {s' fuel}, op.transfer fuel s = .ok s' → l.keeps m op →
        (Replaces isPointer ops s' (op.replaceAllUsesWith isPointer uses (m.expected op))
          ((m.step op).expectedOperands ops) ↔ (l.step m op).keepsAll (m.step op) ops) := by
      intro s' fuel hstep hkeeps
      refine ih (h.step hssa' hin hkeeps hstep) hssa hplace ?_
      rw [h.rep_step hssa' hin hkeeps]
      exact h.uses_step hin hkeeps isPointer huses
    rw [SlotMemory.expectedOperands, replaces_cons]
    constructor
    · rintro ⟨s', ⟨fuel, hstep⟩, hargs, hrest⟩
      have hclose : ¬ op.closes l.rep := fun hclose =>
        h.not_ends_of_closes hin hclose hstep huses _ hargs
      have hkeeps := (h.expected_iff_keeps hin hclose).mp
        ((hmap (h.transfer_endsAt hssa' hin hclose hstep)).mp hargs)
      exact ⟨hkeeps, (hstep_iff hstep hkeeps).mp hrest⟩
    · rintro ⟨hkeeps, hrest⟩
      have hclose := h.not_closes hkeeps
      obtain ⟨fuel, s', hstep⟩ := exists_transfer hssa' h.mentions fun v => ⟨_, h.ends v⟩
      refine ⟨s', ⟨fuel, hstep⟩, ?_, (hstep_iff hstep hkeeps).mpr hrest⟩
      exact (hmap (h.transfer_endsAt hssa' hin hclose hstep)).mpr
        ((h.expected_iff_keeps hin hclose).mpr hkeeps)

end Walk

/-- The replacement gives every operand the value that was stored last exactly
if no operation of the program uses a value after a slot linked to it was
overwritten. -/
theorem replaceOperands_stored_iff (isPointer : Value → Bool) {ops : List SlotOp}
    (h : NonEscaping ops) :
    Replaces isPointer ops .empty id (SlotMemory.init.expectedOperands ops) ↔
      init.keepsAll .init ops :=
  forwards_nil.replaces_iff h.ssa h.inPlace fun _ => rfl

/-- A slot that is read, overwritten and read again. -/
def rereadSlot : List SlotOp :=
  [.alloca 10, .store 1 10, .load 11 10, .other [11, 1] [12], .store 2 10, .load 13 10,
    .other [13, 12] []]

theorem replaceOperands_stored_rereadSlot : NonEscaping rereadSlot ∧
      Replaces (fun _ => false) rereadSlot .empty id
        [[], [1, 1], [1], [1, 1], [2, 2], [2], [2, 12]] := by
  have h : NonEscaping rereadSlot := ⟨⟨by decide, by decide⟩, by decide⟩
  exact ⟨h, (replaceOperands_stored_iff _ h).mpr (by decide)⟩

/-- A slot that is overwritten before a value stored to it is used. -/
def overwrittenSlot : List SlotOp := [.alloca 10, .store 1 10, .store 2 10, .other [1] []]

theorem replaceOperands_redirects_overwrittenSlot : NonEscaping overwrittenSlot ∧
      Replaces (fun _ => false) overwrittenSlot .empty id [[], [1, 1], [2, 2], [2]] ∧
      SlotMemory.init.expectedOperands overwrittenSlot = [[], [1, 1], [2, 2], [1]] ∧
      ¬ Replaces (fun _ => false) overwrittenSlot .empty id
        (SlotMemory.init.expectedOperands overwrittenSlot) := by
  have hrun : replaceOperands 5 (fun _ => false) overwrittenSlot .empty id =
      .ok [⟨[], false⟩, ⟨[1, 1], true⟩, ⟨[2, 2], true⟩, ⟨[2], false⟩] := by rfl
  refine ⟨⟨⟨by decide, by decide⟩, by decide⟩, ⟨5, _, hrun, rfl⟩, by decide, ?_⟩
  rintro ⟨fuel, out, h, hout⟩
  have hmax := replaceOperands_mono h (Nat.le_max_left fuel 5)
  rw [replaceOperands_mono hrun (Nat.le_max_right fuel 5)] at hmax
  cases hmax
  exact absurd hout (by decide)

end Alkali
