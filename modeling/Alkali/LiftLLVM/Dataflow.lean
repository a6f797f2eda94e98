import Alkali.LiftLLVM.StackSlot

/-!
# `StackVariableAnalysis` on functions with branches

The solver keeps a state for the start of every block and a state after every
operation. It visits operations and edges in any order and as often as it likes:
a visit of an edge joins the state at the end of the predecessor into the state
of the block.
-/

namespace Alkali

open Chain StackSlotValue Function

/-- The blocks of a function, with their terminators, and the edges between them. -/
structure SlotCfg where
  blocks : List (List SlotOp)
  edges : List (Nat × Nat)

structure SolverState where
  entry : Nat → StackSlotValue
  after : Nat → Nat → StackSlotValue

def SolverState.init : SolverState := ⟨fun _ => .empty, fun _ _ => .empty⟩

/-- The state before the operation with this index. -/
def SolverState.before (σ : SolverState) (b : Nat) : Nat → StackSlotValue
  | 0 => σ.entry b
  | i + 1 => σ.after b i

inductive Visit
  | edge (pred b : Nat)
  | op (b i : Nat)
  deriving DecidableEq, Repr

namespace SlotCfg

variable (cfg : SlotCfg)

def block (b : Nat) : List SlotOp := (cfg.blocks[b]?).getD []

/-- The state after the terminator of a block. -/
def exit (σ : SolverState) (b : Nat) : StackSlotValue := σ.before b (cfg.block b).length

def visit (fuel : Nat) (σ : SolverState) : Visit → Outcome SolverState
  | .edge pred b =>
    .ok { σ with entry := update σ.entry b ((σ.entry b).join (cfg.exit σ pred)) }
  | .op b i =>
    match (cfg.block b)[i]? with
    | none => .ok σ
    | some op =>
      (op.visit fuel (σ.before b i) (σ.after b i)).bind fun s =>
        .ok { σ with after := update σ.after b (update (σ.after b) i s) }

def Valid : Visit → Prop
  | .edge pred b => (pred, b) ∈ cfg.edges
  | .op b i => i < (cfg.block b).length

instance : DecidablePred cfg.Valid
  | .edge _ _ => inferInstanceAs (Decidable (_ ∈ _))
  | .op _ _ => inferInstanceAs (Decidable (_ < _))

def visitAll (fuel : Nat) : List Visit → SolverState → Outcome SolverState
  | [], σ => .ok σ
  | v :: vs, σ => (cfg.visit fuel σ v).bind (visitAll fuel vs)

end SlotCfg

namespace StackSlotValue

variable (s t : StackSlotValue)

/-- Every value that the first state knows has the same lookup in the second. -/
def RightIn : Prop :=
  ∀ k r, s.updateTable k ≠ none → (∃ fuel, s.lookup fuel k = some r) →
    ∃ fuel, t.lookup fuel k = some r

/-- What the first state looks up, the second looks up as well if it knows the
key, and does not forward any further. -/
def Respects : Prop :=
  ∀ fuel k r, s.updateTable k ≠ none → s.lookup fuel k = some r →
    (t.updateTable k ≠ none → ∃ fuel', t.lookup fuel' k = some r) ∧ t.next r = none

end StackSlotValue

namespace SlotCfg

variable (cfg : SlotCfg)

/-- A visited operation may have added the key. -/
def Entered (visited : List Visit) (k : Value) : Prop :=
  ∃ b i op, .op b i ∈ visited ∧ (cfg.block b)[i]? = some op ∧ k ∈ op.keys

/-- The states that a visit joins do not contradict each other, and the result of
an operation that initializes an entry was entered by none of the visits so far. -/
def Safe (visited : List Visit) (σ : SolverState) : Visit → Prop
  | .edge pred b =>
    (σ.entry b).Respects (cfg.exit σ pred) ∧ (cfg.exit σ pred).Respects (σ.entry b)
  | .op b i => ∀ op, (cfg.block b)[i]? = some op → ∀ r source,
      op.initialized = some (r, source) → ¬ cfg.Entered visited r

/-- A run of the solver in which every visit is safe: its visits, each with the
state before it, and the state reached. -/
inductive SafeRun : List (SolverState × Visit) → SolverState → Prop
  | start : SafeRun [] .init
  | step {steps σ σ'} (v : Visit) (fuel : Nat) (prev : SafeRun steps σ)
      (valid : cfg.Valid v) (safe : cfg.Safe (steps.map Prod.snd) σ v)
      (h : cfg.visit fuel σ v = .ok σ') :
      SafeRun (steps ++ [(σ, v)]) σ'

end SlotCfg

namespace StackSlotValue

variable {s t : StackSlotValue}

theorem join_updateTable (v : Value) :
    (s.join t).updateTable v = (s.updateTable v).or (t.updateTable v) := rfl

variable {v : Value}

theorem join_of_some {w : Value} (h : s.updateTable v = some w) :
    (s.join t).updateTable v = some w := by
  simp [join_updateTable, h]

theorem join_of_none (h : s.updateTable v = none) : (s.join t).updateTable v = t.updateTable v := by
  simp [join_updateTable, h]

theorem next_join_of_ne_none (h : s.updateTable v ≠ none) : (s.join t).next v = s.next v := by
  obtain ⟨w, hw⟩ := Option.ne_none_iff_exists'.mp h
  simp only [next, join_of_some hw, hw]

theorem next_join_of_none (h : s.updateTable v = none) : (s.join t).next v = t.next v := by
  simp only [next, join_of_none h]

theorem Respects.rightIn_join_left (h : s.Respects t) : s.RightIn (s.join t) := by
  intro k r hk hr
  rw [lookup_iff] at hr ⊢
  have hstop : t.next r = none := by
    obtain ⟨fuel, hfuel⟩ := lookup_iff.mpr hr
    exact (h fuel k r hk hfuel).2
  clear hk
  induction hr with
  | @stop v hv =>
    by_cases hkey : s.updateTable v = none
    · exact .stop ((next_join_of_none hkey).trans hstop)
    · exact .stop ((next_join_of_ne_none hkey).trans hv)
  | step hv _ ih =>
    have hkey := (next_eq_some.mp hv).1
    refine .step ?_ (ih hstop)
    rw [next_join_of_ne_none (by simp [hkey]), hv]

theorem Respects.rightIn_join_right (hst : s.Respects t) (hts : t.Respects s) :
    t.RightIn (s.join t) := by
  intro k r hk hr
  rw [lookup_iff] at hr ⊢
  have hstop : s.next r = none := by
    obtain ⟨fuel, hfuel⟩ := lookup_iff.mpr hr
    exact (hts fuel k r hk hfuel).2
  clear hk
  induction hr with
  | @stop v hv =>
    by_cases hkey : s.updateTable v = none
    · exact .stop ((next_join_of_none hkey).trans hv)
    · exact .stop ((next_join_of_ne_none hkey).trans hstop)
  | @step v w r hv rest ih =>
    by_cases hkey : s.updateTable v = none
    · exact .step ((next_join_of_none hkey).trans hv) (ih hstop)
    · -- both states know the value, and the first one decides
      obtain ⟨fuel, hfuel⟩ := lookup_iff.mpr (Ends.step hv rest)
      have hv' : t.updateTable v ≠ none := by simp [(next_eq_some.mp hv).1]
      exact lookup_iff.mp (hst.rightIn_join_left v r hkey ((hts fuel v r hv' hfuel).1 hkey))

variable {k : Value}

theorem join_ne_none_left (h : s.updateTable k ≠ none) : (s.join t).updateTable k ≠ none := by
  simp [join_updateTable, h]

theorem join_ne_none_right (h : t.updateTable k ≠ none) : (s.join t).updateTable k ≠ none := by
  simp [join_updateTable, h]

/-- The second state knows all keys of the first and has the same lookups for them. -/
def Extends (s t : StackSlotValue) : Prop :=
  s.RightIn t ∧ ∀ k, s.updateTable k ≠ none → t.updateTable k ≠ none

theorem Extends.trans {u : StackSlotValue} (h : s.Extends t) (h' : t.Extends u) : s.Extends u :=
  ⟨fun k r hk hr => h'.1 k r (h.2 k hk) (h.1 k r hk hr), fun k hk => h'.2 k (h.2 k hk)⟩

theorem Respects.extends_join_left (h : s.Respects t) : s.Extends (s.join t) :=
  ⟨h.rightIn_join_left, fun _ => join_ne_none_left⟩

theorem Respects.extends_join_right (hst : s.Respects t) (hts : t.Respects s) :
    t.Extends (s.join t) :=
  ⟨hst.rightIn_join_right hts, fun _ => join_ne_none_right⟩

theorem respects_self : s.Respects s := by
  intro fuel k r _ hr
  exact ⟨fun _ => ⟨fuel, hr⟩, (ends_of_follow hr).stops⟩

theorem empty_respects : empty.Respects s := fun _ _ _ hk => absurd rfl hk

theorem respects_empty : s.Respects empty := fun _ _ _ _ _ => ⟨fun hk => absurd rfl hk, rfl⟩

end StackSlotValue

namespace SlotCfg

variable {cfg : SlotCfg} {σ σ' : SolverState} {steps : List (SolverState × Visit)}
  {visited : List Visit} {v : Visit} {fuel : Nat}

/-- Every key of every state was entered by a visit. -/
structure KeysEntered (cfg : SlotCfg) (visited : List Visit) (σ : SolverState) : Prop where
  entry : ∀ b k, (σ.entry b).updateTable k ≠ none → cfg.Entered visited k
  after : ∀ b i k, (σ.after b i).updateTable k ≠ none → cfg.Entered visited k

variable {k : Value}

theorem Entered.snoc (h : cfg.Entered visited k) (v : Visit) : cfg.Entered (visited ++ [v]) k := by
  obtain ⟨b, i, op, hmem, hop, hk⟩ := h
  exact ⟨b, i, op, List.mem_append_left _ hmem, hop, hk⟩

theorem KeysEntered.before (h : cfg.KeysEntered visited σ) (b i : Nat) (k : Value)
    (hk : (σ.before b i).updateTable k ≠ none) : cfg.Entered visited k := by
  cases i with
  | zero => exact h.entry b k hk
  | succ i => exact h.after b i k hk

theorem KeysEntered.join (h : cfg.KeysEntered visited σ) (b i : Nat) (k : Value)
    (hk : ((σ.after b i).join (σ.before b i)).updateTable k ≠ none) :
    cfg.Entered visited k := by
  by_cases hafter : (σ.after b i).updateTable k = none
  · rw [join_of_none hafter] at hk
    exact h.before b i k hk
  · exact h.after b i k hafter

theorem SlotOp.keys_of_transfer {op : SlotOp} {s s' : StackSlotValue}
    (h : op.transfer fuel s = .ok s') (hk : s'.updateTable k ≠ none) :
    s.updateTable k ≠ none ∨ k ∈ op.keys := by
  obtain ⟨w, hw⟩ := Option.ne_none_iff_exists'.mp hk
  rcases SlotOp.entry_of_transfer h hw with hold | hinit | ⟨addr, hwr, hself | rfl, _⟩
  · exact Or.inl (by simp [hold])
  · exact Or.inr (by simp [SlotOp.keys, hinit])
  · exact Or.inl (by simp [hself])
  · exact Or.inr (by simp [SlotOp.keys, hwr])

theorem KeysEntered.visit (h : cfg.KeysEntered visited σ) (hv : cfg.visit fuel σ v = .ok σ') :
    cfg.KeysEntered (visited ++ [v]) σ' := by
  cases v with
  | edge pred b' =>
    cases hv
    refine ⟨?_, fun b i k hk => (h.after b i k hk).snoc _⟩
    intro b k hk
    by_cases hb : b = b'
    · subst hb
      simp only [update_self] at hk
      by_cases hent : (σ.entry b).updateTable k = none
      · rw [join_of_none hent] at hk
        exact (h.before pred _ k hk).snoc _
      · exact (h.entry b k hent).snoc _
    · simp only [update_of_ne hb] at hk
      exact (h.entry b k hk).snoc _
  | op b' i' =>
    simp only [SlotCfg.visit] at hv
    cases hop : (cfg.block b')[i']? with
    | none =>
      simp only [hop] at hv
      cases hv
      exact ⟨fun b k hk => (h.entry b k hk).snoc _, fun b i k hk => (h.after b i k hk).snoc _⟩
    | some op =>
      simp only [hop] at hv
      obtain ⟨s, hs, hσ⟩ := Outcome.bind_eq_ok.mp hv
      cases hσ
      refine ⟨fun b k hk => (h.entry b k hk).snoc _, ?_⟩
      intro b i k hk
      by_cases hb : b = b'
      · subst hb
        by_cases hi : i = i'
        · subst hi
          simp only [update_self] at hk
          rcases SlotOp.keys_of_transfer hs hk with hold | hnew
          · exact (h.join b i k hold).snoc _
          · exact ⟨b, i, op, by simp, hop, hnew⟩
        · simp only [update_self, update_of_ne hi] at hk
          exact (h.after b i k hk).snoc _
      · simp only [update_of_ne hb] at hk
        exact (h.after b i k hk).snoc _

theorem SafeRun.keysEntered (run : cfg.SafeRun steps σ) :
    cfg.KeysEntered (steps.map Prod.snd) σ := by
  induction run with
  | start => exact ⟨fun _ _ hk => absurd rfl hk, fun _ _ _ hk => absurd rfl hk⟩
  | step _ _ prev _ _ hv ih =>
    rw [List.map_append]
    exact ih.visit hv

theorem Safe.visit_ne_assertion (h : cfg.Safe visited σ v) (hkeys : cfg.KeysEntered visited σ) :
    cfg.visit fuel σ v ≠ .assertion := by
  cases v with
  | edge pred b => exact nofun
  | op b i =>
    simp only [SlotCfg.visit]
    cases hop : (cfg.block b)[i]? with
    | none => exact nofun
    | some op =>
      have htransfer : op.visit fuel (σ.before b i) (σ.after b i) ≠ .assertion := by
        refine SlotOp.transfer_ne_assertion ?_
        rintro ⟨r, source⟩ hinit
        by_contra hr
        exact h op hop r source hinit (hkeys.join b i r hr)
      cases hstep : op.visit fuel (σ.before b i) (σ.after b i) with
      | ok s => simp [Outcome.bind, hstep]
      | assertion => exact absurd hstep htransfer
      | outOfFuel => simp [Outcome.bind, hstep]

theorem entry_of_visit_op {b i : Nat} (h : cfg.visit fuel σ (.op b i) = .ok σ') :
    σ'.entry = σ.entry := by
  simp only [visit] at h
  split at h
  · cases h
    rfl
  · obtain ⟨s, _, hs⟩ := Outcome.bind_eq_ok.mp h
    cases hs
    rfl

/-- A safe visit keeps what is known at the start of a block. -/
theorem entry_extends (hsafe : cfg.Safe visited σ v) (h : cfg.visit fuel σ v = .ok σ')
    (b : Nat) : (σ.entry b).Extends (σ'.entry b) := by
  cases v with
  | op b' i =>
    rw [entry_of_visit_op h]
    exact ⟨fun _ _ _ => id, fun _ => id⟩
  | edge pred b' =>
    cases h
    by_cases hb : b = b'
    · subst hb
      simp only [update_self]
      exact hsafe.1.extends_join_left
    · simp only [update_of_ne hb]
      exact ⟨fun _ _ _ => id, fun _ => id⟩

theorem SafeRun.exit_extends_entry (run : cfg.SafeRun steps σ) {τ : SolverState} {pred b : Nat}
    (hst : (τ, Visit.edge pred b) ∈ steps) : (cfg.exit τ pred).Extends (σ.entry b) := by
  induction run with
  | start => cases hst
  | @step steps σ σ' v fuel prev _ hsafe hv ih =>
    rcases List.mem_append.mp hst with hst | hst
    · exact (ih hst).trans (entry_extends hsafe hv b)
    · obtain ⟨rfl, rfl⟩ := Prod.mk.inj (List.mem_singleton.mp hst)
      cases hv
      simp only [update_self]
      exact hsafe.1.extends_join_right hsafe.2

end SlotCfg

/-- In every run with safe visits, the state of a block is right for every
state that was joined into it, and no safe visit fails an assertion. -/
theorem stackVariableAnalysis_sound {cfg : SlotCfg} {steps : List (SolverState × Visit)}
    {σ : SolverState} (run : cfg.SafeRun steps σ) :
    (∀ τ pred b, (τ, .edge pred b) ∈ steps → (cfg.exit τ pred).RightIn (σ.entry b)) ∧
      ∀ v, cfg.Valid v → cfg.Safe (steps.map Prod.snd) σ v →
        ∀ fuel, cfg.visit fuel σ v ≠ .assertion :=
  ⟨fun _ _ _ hst => (run.exit_extends_entry hst).1,
    fun _ _ hv _ => hv.visit_ne_assertion run.keysEntered⟩

/-- A slot is written before a branch, and the two paths join again. -/
def writtenBefore : SlotCfg where
  blocks := [[.alloca 10, .store 1 10, .other [] []], [.other [] []], [.other [] []],
    [.other [10] []]]
  edges := [(0, 1), (0, 2), (1, 3), (2, 3)]

theorem stackVariableAnalysis_sound_writtenBefore : ∃ steps σ, writtenBefore.SafeRun steps σ ∧
      steps.map Prod.snd = [.op 0 0, .op 0 1, .op 0 2, .edge 0 1, .op 1 0, .edge 0 2, .op 2 0,
        .edge 1 3, .edge 2 3] ∧
      ∀ τ pred b, (τ, .edge pred b) ∈ steps → (writtenBefore.exit τ pred).RightIn (σ.entry b) := by
  have hquiet : ∀ {visited σ b i op}, (writtenBefore.block b)[i]? = some op →
      op.initialized = none → writtenBefore.Safe visited σ (.op b i) := by
    intro visited σ b i op hop hinit op' hop' r source hinit'
    rw [hop] at hop'
    cases hop'
    rw [hinit] at hinit'
    cases hinit'
  have hfirst : ∀ {visited σ pred b}, σ.entry b = .empty →
      writtenBefore.Safe visited σ (.edge pred b) := by
    intro visited σ pred b hb
    refine ⟨?_, ?_⟩ <;> rw [hb]
    · exact empty_respects
    · exact respects_empty
  have hinit : writtenBefore.Safe [] .init (.op 0 0) := by
    rintro op _ r source _ ⟨_, _, _, hmem, _⟩
    cases hmem
  have run := (SlotCfg.SafeRun.start : writtenBefore.SafeRun [] .init)
    |>.step (.op 0 0) 5 (by decide) hinit rfl
    |>.step (.op 0 1) 5 (by decide) (hquiet rfl rfl) rfl
    |>.step (.op 0 2) 5 (by decide) (hquiet rfl rfl) rfl
    |>.step (.edge 0 1) 5 (by decide) (hfirst rfl) rfl
    |>.step (.op 1 0) 5 (by decide) (hquiet rfl rfl) rfl
    |>.step (.edge 0 2) 5 (by decide) (hfirst rfl) rfl
    |>.step (.op 2 0) 5 (by decide) (hquiet rfl rfl) rfl
    |>.step (.edge 1 3) 5 (by decide) (hfirst rfl) rfl
    |>.step (.edge 2 3) 5 (by decide) ⟨respects_self, respects_self⟩ rfl
  exact ⟨_, _, run, rfl, (stackVariableAnalysis_sound run).1⟩

/-- A slot is written on both paths and read where they join. -/
def writtenOnBoth : SlotCfg where
  blocks := [[.alloca 10, .other [] []], [.store 1 10, .other [] []],
    [.store 2 10, .other [] []], [.load 11 10, .other [11] []]]
  edges := [(0, 1), (0, 2), (1, 3), (2, 3)]

/-- One path and the block behind it, then the other path. -/
def onePathFirst : List Visit :=
  [.op 0 0, .op 0 1, .edge 0 1, .op 1 0, .op 1 1, .edge 1 3, .op 3 0, .op 3 1, .edge 0 2,
    .op 2 0, .op 2 1, .edge 2 3]

theorem stackVariableAnalysis_unsound_writtenOnBoth : ∃ σ,
    (∀ v ∈ onePathFirst ++ [.op 3 0], writtenOnBoth.Valid v) ∧
      writtenOnBoth.visitAll 5 onePathFirst .init = .ok σ ∧
      (writtenOnBoth.exit σ 1).lookup 5 10 = some 1 ∧
      (writtenOnBoth.exit σ 2).lookup 5 10 = some 2 ∧
      (σ.entry 3).lookup 5 10 = some 1 ∧
      ¬ (writtenOnBoth.exit σ 2).RightIn (σ.entry 3) ∧
      writtenOnBoth.visit 5 σ (.op 3 0) = .assertion := by
  refine ⟨_, by decide, rfl, rfl, rfl, rfl, ?_, rfl⟩
  intro hright
  obtain ⟨fuel, h⟩ := hright 10 2 nofun ⟨5, rfl⟩
  have hends := (ends_of_follow h).unique ((lookup_iff (r := 1)).mp ⟨5, rfl⟩)
  exact absurd hends (by decide)

end Alkali
