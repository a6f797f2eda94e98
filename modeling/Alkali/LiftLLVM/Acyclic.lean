import Alkali.LiftLLVM.StackSlot

/-!
# Termination of the analysis on straight-line programs

The loops of `lookup` and `update` terminate as long as the table has no cycle
but self-loops. A store closes a cycle exactly when the value to be stored
forwards to the end of the chain of its address without being that end.
-/

namespace Alkali

open Chain SlotOp

namespace StackSlotValue

variable (s : StackSlotValue)

/-- The table has no cycle but self-loops, and the loops over it terminate. -/
structure Sound : Prop where
  acyclic : ∀ v, ¬ Cyclic s.next v
  lookup : ∀ v, ∃ fuel r, s.lookup fuel v = some r
  update : ∀ value newValue, ∃ fuel s', s.update fuel value newValue = .ok s'

/-- Every chain ends. -/
def Terminating : Prop := ∀ v, ∃ r, Ends s.next v r

variable {s}

theorem exists_update {fuel : Nat} {value newValue tail : Value}
    (h : s.lookup fuel value = some tail) : ∃ s', s.update fuel value newValue = .ok s' := by
  simp only [update, h]
  split_ifs
  · exact ⟨_, rfl⟩
  · exact ⟨_, rfl⟩

theorem sound_iff_terminating : s.Sound ↔ s.Terminating := by
  constructor
  · intro h v
    obtain ⟨fuel, r, hr⟩ := h.lookup v
    exact ⟨r, ends_of_follow hr⟩
  · intro h
    constructor
    · intro v
      obtain ⟨r, hr⟩ := h v
      exact hr.not_cyclic
    · intro v
      obtain ⟨r, hr⟩ := h v
      obtain ⟨fuel, hfuel⟩ := hr.exists_follow
      exact ⟨fuel, r, hfuel⟩
    · intro value newValue
      obtain ⟨r, hr⟩ := h value
      obtain ⟨fuel, hfuel⟩ := hr.exists_follow
      exact ⟨fuel, exists_update hfuel⟩

theorem empty_terminating : empty.Terminating := fun v => ⟨v, .stop (next_of_none rfl)⟩

/-- Joining two chains at the end of one of them keeps all chains finite. -/
theorem terminating_of_link {s' : StackSlotValue} {a b c : Value} (h : s.Terminating)
    (ha : s.next a = none) (hb : Ends s.next b c) (hc : c ≠ a)
    (hnext : s'.next = link s.next a b) : s'.Terminating := by
  intro v
  obtain ⟨r, hr⟩ := h v
  rw [hnext]
  by_cases hra : r = a
  · exact ⟨c, hr.link hra hb hc⟩
  · exact ⟨r, hr.link_of_ne ha hra⟩

end StackSlotValue

open StackSlotValue

/-- The storing operations for which the table stays without cycles: the chain
of the address does not end in an entry of the table, or the value does not
forward to that end, or it is that end. -/
def SlotOp.safe (s : StackSlotValue) (op : SlotOp) : Prop :=
  ∀ addr value, op.written = some (addr, value) → ∀ fuel tail,
    s.lookup fuel addr = some tail → s.updateTable tail = some tail →
    s.lookup fuel value = some tail → value = tail

/-- Results are new when they are defined. -/
structure Ssa (ops : List SlotOp) : Prop where
  later : ops.Pairwise fun o p => ∀ r ∈ p.results, r ∉ o.operands ∧ r ∉ o.results
  own : ∀ o ∈ ops, ∀ r ∈ o.results, r ∉ o.operands

variable {ops : List SlotOp} {op : SlotOp}

theorem Ssa.of_turns {pre : List SlotOp} (h : Ssa ops) (hpre : pre <+: ops) : Ssa pre :=
  ⟨h.later.sublist hpre.sublist, fun o ho => h.own o (hpre.subset ho)⟩

/-- The value occurs in one of the operations. -/
def Occurs (ops : List SlotOp) (v : Value) : Prop :=
  ∃ o ∈ ops, v ∈ o.operands ∨ v ∈ o.results

/-- Every entry of the table is about values of the visited operations. -/
def Mentions (ops : List SlotOp) (s : StackSlotValue) : Prop :=
  ∀ k w, s.updateTable k = some w → Occurs ops k ∧ Occurs ops w

variable {v : Value} {s : StackSlotValue}

theorem Occurs.snoc (h : Occurs ops v) (op : SlotOp) : Occurs (ops ++ [op]) v := by
  obtain ⟨o, ho, hv⟩ := h
  exact ⟨o, List.mem_append_left _ ho, hv⟩

theorem occurs_last (h : v ∈ op.operands ∨ v ∈ op.results) : Occurs (ops ++ [op]) v :=
  ⟨op, by simp, h⟩

theorem Ssa.fresh (h : Ssa (ops ++ [op])) {r : Value} (hr : r ∈ op.results) :
    ¬ Occurs ops r ∧ r ∉ op.operands := by
  refine ⟨?_, h.own op (by simp) r hr⟩
  rintro ⟨o, ho, hmem⟩
  obtain ⟨hop, hres⟩ := (List.pairwise_append.mp h.later).2.2 o ho op (by simp) r hr
  exact hmem.elim hop hres

theorem SlotOp.initialized_mem {r source : Value} (h : op.initialized = some (r, source)) :
    r ∈ op.results ∧ (source = r ∨ source ∈ op.operands) := by
  cases op <;> simp [initialized, results, operands] at h ⊢
  case alloca | init => exact ⟨h.1.symm, h.2.symm.trans h.1⟩
  case load | cast => exact ⟨h.1.symm, Or.inr h.2.symm⟩

theorem SlotOp.written_mem {addr value : Value} (h : op.written = some (addr, value)) :
    addr ∈ op.operands ∧ value ∈ op.operands := by
  cases op <;> simp_all [written, operands]

section Step

variable {ops : List SlotOp} {op : SlotOp} {s s' : StackSlotValue}
variable {fuel : Nat}

theorem Mentions.transfer (h : Mentions ops s) (hstep : op.transfer fuel s = .ok s') :
    Mentions (ops ++ [op]) s' := by
  intro k w hkw
  rcases entry_of_transfer hstep hkw with hold | hinit | ⟨addr, hwr, hk, _⟩
  · exact ⟨(h k w hold).1.snoc op, (h k w hold).2.snoc op⟩
  · obtain ⟨hr, hsrc⟩ := initialized_mem hinit
    refine ⟨occurs_last (Or.inr hr), ?_⟩
    rcases hsrc with rfl | hsrc
    · exact occurs_last (Or.inr hr)
    · exact occurs_last (Or.inl hsrc)
  · have hw : Occurs (ops ++ [op]) w := occurs_last (Or.inl (written_mem hwr).2)
    refine ⟨?_, hw⟩
    rcases hk with hself | rfl
    · exact (h k k hself).1.snoc op
    · exact hw

/-- A value that the table does not mention is the end of its own chain only. -/
theorem Mentions.eq_of_ends (h : Mentions ops s) {r v : Value} (hr : ¬ Occurs ops r)
    (hends : Ends s.next v r) : v = r := by
  induction hends with
  | stop _ => rfl
  | step hv _ ih =>
    have hw := ih hr
    subst hw
    exact absurd (h _ _ (next_eq_some.mp hv).1).2 hr

/-- A visit of the next operation of an SSA program does not fail. -/
theorem exists_transfer (hssa : Ssa (ops ++ [op])) (hm : Mentions ops s)
    (ht : s.Terminating) : ∃ fuel s', op.transfer fuel s = .ok s' := by
  obtain ⟨r, source, hinit, htr⟩ | ⟨addr, value, _, htr⟩ | ⟨_, _, htr⟩ := op.transfer_cases
  · have hnone : s.updateTable r = none := by
      by_contra hsome
      obtain ⟨w, hw⟩ := Option.ne_none_iff_exists'.mp hsome
      exact (hssa.fresh (initialized_mem hinit).1).1 (hm r w hw).1
    exact ⟨0, _, by rw [htr, StackSlotValue.init, if_pos hnone]⟩
  · obtain ⟨fuel, s', h⟩ := (sound_iff_terminating.mpr ht).update addr value
    exact ⟨fuel, s', by rw [htr, h]⟩
  · exact ⟨0, s, htr 0 s⟩

/-- A safe operation keeps all chains finite. -/
theorem StackSlotValue.Terminating.transfer (hssa : Ssa (ops ++ [op])) (hm : Mentions ops s)
    (ht : s.Terminating) (hsafe : op.safe s) (hstep : op.transfer fuel s = .ok s') :
    s'.Terminating := by
  obtain ⟨r, source, hinit, htr⟩ | ⟨addr, value, hwr, htr⟩ | ⟨_, _, htr⟩ := op.transfer_cases
  · rw [htr] at hstep
    have hnext := next_init hstep
    obtain ⟨hr, hsrc⟩ := initialized_mem hinit
    obtain ⟨hfresh, hown⟩ := hssa.fresh hr
    split_ifs at hnext with heq
    · intro v
      rw [hnext]
      exact ht v
    · obtain ⟨c, hc⟩ := ht source
      refine terminating_of_link ht (next_of_none (init_eq_ok hstep).1) hc ?_ hnext
      rintro rfl
      exact heq (hm.eq_of_ends hfresh hc)
  · rw [htr] at hstep
    obtain ⟨tail, htail, ⟨_, rfl⟩ | ⟨hself, rfl⟩⟩ := update_eq_ok hstep
    · exact ht
    · have hnext := next_redirect tail value hself
      split_ifs at hnext with heq
      · intro v
        rw [hnext]
        exact ht v
      · obtain ⟨c, hc⟩ := ht value
        refine terminating_of_link ht htail.stops hc ?_ hnext
        rintro rfl
        obtain ⟨n, hn⟩ := htail.exists_follow
        obtain ⟨m, hm⟩ := hc.exists_follow
        exact heq (hsafe addr value hwr (max n m) c (follow_mono hn (Nat.le_max_left n m)) hself
          (follow_mono hm (Nat.le_max_right n m)))
  · rw [htr] at hstep
    cases hstep
    exact ht

/-- An operation that is not safe closes a cycle. -/
theorem cyclic_of_not_safe (hsafe : ¬ op.safe s) (hstep : op.transfer fuel s = .ok s') :
    ∃ v, Cyclic s'.next v := by
  simp only [safe, not_forall] at hsafe
  obtain ⟨addr, value, hwr, n, tail, hn, hself, hm, hne⟩ := hsafe
  obtain ⟨r, source, hinit, _⟩ | ⟨addr', value', hwr', htr⟩ | ⟨_, hwr', _⟩ := op.transfer_cases
  · cases op <;> simp_all [initialized, written]
  · rw [hwr] at hwr'
    cases hwr'
    rw [htr] at hstep
    obtain ⟨tail', htail', hcase⟩ := update_eq_ok hstep
    obtain rfl : tail' = tail := htail'.unique (ends_of_follow hn)
    rcases hcase with ⟨hnot, _⟩ | ⟨_, rfl⟩
    · exact absurd hself hnot
    · refine ⟨tail', ?_⟩
      rw [next_redirect tail' value hself, if_neg hne]
      exact (ends_of_follow hm).link_cyclic
  · rw [hwr] at hwr'
    cases hwr'

end Step

/-- On the whole program the analysis keeps its table acyclic and terminates
exactly when every store and every assignment is safe in the state before it. -/
theorem analyze_sound_iff {ops : List SlotOp} (hssa : Ssa ops) :
    (∀ pre, pre <+: ops → ∃ s, Analyzed pre s ∧ s.Sound) ↔
      ∀ pre op s, pre ++ [op] <+: ops → Analyzed pre s → op.safe s := by
  constructor
  · intro h pre op s hpre hs
    by_contra hsafe
    obtain ⟨s', hs', hsound⟩ := h (pre ++ [op]) hpre
    obtain ⟨t, ht, fuel, hstep⟩ := analyzed_snoc.mp hs'
    obtain rfl := ht.unique hs
    obtain ⟨v, hv⟩ := cyclic_of_not_safe hsafe hstep
    exact hsound.acyclic v hv
  · intro h
    -- the tables mention visited values only, which keeps new results apart
    suffices hinv : ∀ pre, pre <+: ops → ∃ s, Analyzed pre s ∧ s.Terminating ∧ Mentions pre s by
      intro pre hpre
      obtain ⟨s, hs, hterm, _⟩ := hinv pre hpre
      exact ⟨s, hs, sound_iff_terminating.mpr hterm⟩
    intro pre
    induction pre using List.reverseRecOn with
    | nil =>
      intro _
      exact ⟨.empty, .nil, empty_terminating, by simp [Mentions, StackSlotValue.empty]⟩
    | append_singleton pre op ih =>
      intro hpre
      obtain ⟨s, hs, hterm, hm⟩ := ih ((List.prefix_append pre [op]).trans hpre)
      have hssa' := hssa.of_turns hpre
      obtain ⟨fuel, s', hstep⟩ := exists_transfer hssa' hm hterm
      exact ⟨s', analyzed_snoc.mpr ⟨s, hs, fuel, hstep⟩,
        StackSlotValue.Terminating.transfer hssa' hm hterm
          (h pre op s hpre hs) hstep, hm.transfer hstep⟩

theorem SlotOp.safe_of_lookup_ne {addr value tail w : Value} {n m : Nat}
    (hwr : op.written = some (addr, value)) (htail : s.lookup n addr = some tail)
    (hw : s.lookup m value = some w) (hne : w ≠ tail) : op.safe s := by
  intro addr' value' hwr' fuel tail' htail' _ hvalue
  rw [hwr] at hwr'
  cases hwr'
  have h := (ends_of_follow htail').unique (ends_of_follow htail)
  exact absurd ((ends_of_follow hw).unique (h ▸ ends_of_follow hvalue)) hne

theorem SlotOp.safe_of_written_eq_none (h : op.written = none) : op.safe s := by
  intro addr value hwr
  rw [h] at hwr
  cases hwr

/-- A slot that is written twice and read in between. -/
def rewrittenSlot : List SlotOp := [.alloca 10, .store 1 10, .load 11 10, .store 2 10]

theorem analyze_sound_rewrittenSlot :
    Ssa rewrittenSlot ∧ ∀ pre, pre <+: rewrittenSlot → ∃ s, Analyzed pre s ∧ s.Sound := by
  have hssa : Ssa rewrittenSlot := ⟨by decide, by decide⟩
  refine ⟨hssa, (analyze_sound_iff hssa).mpr ?_⟩
  rintro pre op s ⟨rest, h⟩ hs
  rcases pre with _ | ⟨a, _ | ⟨b, _ | ⟨c, _ | ⟨d, pre⟩⟩⟩⟩
  all_goals simp [rewrittenSlot] at h
  · obtain ⟨rfl, _⟩ := h
    exact safe_of_written_eq_none rfl
  · obtain ⟨rfl, rfl, _⟩ := h
    obtain rfl := hs.unique ⟨0, rfl⟩
    exact safe_of_lookup_ne (n := 1) (m := 1) rfl rfl rfl (by decide)
  · obtain ⟨_, _, rfl, _⟩ := h
    exact safe_of_written_eq_none rfl
  · obtain ⟨rfl, rfl, rfl, rfl, _⟩ := h
    obtain rfl := hs.unique ⟨1, rfl⟩
    exact safe_of_lookup_ne (n := 2) (m := 1) rfl rfl rfl (by decide)

/-- The assignment of a variable to itself. -/
def selfAssignment : List SlotOp := [.alloca 10, .load 11 10, .store 11 10]

theorem analyze_cyclic_selfAssignment : Ssa selfAssignment ∧
      ¬ ∀ pre, pre <+: selfAssignment → ∃ s, Analyzed pre s ∧ s.Sound := by
  refine ⟨⟨by decide, by decide⟩, ?_⟩
  intro h
  obtain ⟨s, hs, hsound⟩ := h selfAssignment List.prefix_rfl
  obtain rfl := hs.unique ⟨1, rfl⟩
  refine hsound.acyclic 10 ?_
  exact .tail (.single (b := 11) rfl) rfl

end Alkali
