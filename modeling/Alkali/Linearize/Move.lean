import Alkali.Linearize.Walks
import Mathlib.Data.List.Flatten

/-!
# Lifting an operation keeps the effects

In SSA form the operands and the conditions of a lifted operation have the same
values at the end of the entry block as at its old place. The operation does
the same there, unless one of the operations it passes conflicts with it.
-/

namespace Alkali

open List Operation

theorem eq_take_append_drop {α : Type} {xs : List α} {i : Nat} {x : α} (h : xs[i]? = some x) :
    xs = xs.take i ++ x :: xs.drop (i + 1) := by
  obtain ⟨hi, rfl⟩ := List.getElem?_eq_some_iff.mp h
  rw [getElem_cons_drop, take_append_drop]

namespace FuncOp

/-- The values that are bound in a block. -/
def bindingsOf (f : FuncOp) (b : Nat) : List Value :=
  f.argsOf b ++ (f.opsOf b).flatMap binds

/-- An acyclic function in SSA form: every value is bound once, and before it is
used on every walk. Operations with an effect have no results. -/
structure SsaForm (f : FuncOp) : Prop where
  entry : f.predecessors 0 = []
  acyclic : f.Acyclic
  nodup : ∀ b, (f.bindingsOf b).Nodup
  disjoint : ∀ b c, b ≠ c → (f.bindingsOf b).Disjoint (f.bindingsOf c)
  uses : ∀ w, f.Walk 0 w → InstrsFrom (f.argsOf 0) (f.code w)
  results : ∀ b, ∀ o ∈ f.opsOf b, effects o.inner.kind → o.inner.results = []

/-- The operations that an operation passes when it moves to the entry block. -/
def Passes (f : FuncOp) (b i : Nat) (p : Operation) : Prop :=
  p ∈ (f.opsOf b).take i ∨ ∃ c, c ≠ 0 ∧ Relation.TransGen f.Edge c b ∧ p ∈ f.opsOf c

variable {f f' : FuncOp}
variable {b : Nat} {w : List Leg}

theorem binds_of_edge {d : Nat} {instrs : List Instr} (h : (instrs, d) ∈ f.edges b) :
    instrs.flatMap Instr.binds = f.argsOf d := by
  obtain ⟨-, tests, args, rfl, -⟩ := tests_and_bind_of_edge h
  simp [flatMap_map, Instr.binds]

/-- What a walk binds are the bindings of its blocks. -/
theorem binds_code (h : f.Walk b w) :
    f.argsOf b ++ (f.code w).flatMap Instr.binds = (w.map Prod.fst).flatMap f.bindingsOf := by
  have hops : ∀ c, ((f.opsOf c).map Instr.op).flatMap Instr.binds = (f.opsOf c).flatMap binds := by
    intro c
    rw [flatMap_map]
    rfl
  induction h with
  | stop => simp [bindingsOf, hops]
  | go hedge _ ih =>
    rw [code_cons, flatMap_append, flatMap_append, hops, binds_of_edge hedge,
      append_assoc, ih, ← append_assoc]
    rfl

theorem SsaForm.nodup_code (hf : f.SsaForm) (h : f.Walk b w) :
    (f.argsOf b ++ (f.code w).flatMap Instr.binds).Nodup := by
  rw [binds_code h, nodup_flatMap]
  refine ⟨fun c _ => hf.nodup c, (hf.acyclic.walk_nodup h).imp ?_⟩
  intro c d hne
  exact hf.disjoint c d hne

theorem code_congr (h : ∀ leg ∈ w, f'.opsOf leg.1 = f.opsOf leg.1) : f'.code w = f.code w := by
  induction w with
  | nil => rfl
  | cons leg w ih =>
    rw [code_cons, code_cons, h leg (by simp), ih fun l hl => h l (by simp [hl])]

section Code

variable {b i : Nat} {o q : Operation} {e₀ : List Instr} {rest : List Leg}

theorem code_moveOp_of_not_mem (h0 : 0 ∉ w.map Prod.fst) (hb : b ∉ w.map Prod.fst) :
    (f.moveOp b i q).code w = f.code w := by
  refine code_congr fun leg hleg => opsOf_moveOp_of_ne ?_ ?_
  · rintro rfl
    exact hb (mem_map_of_mem hleg)
  · intro hzero
    exact h0 (hzero ▸ mem_map_of_mem hleg)

/-- The code of a walk that does not visit the block of the moved operation. -/
theorem code_moveOp_skip (hb : b ≠ 0) (hblocks : f.blocks ≠ []) (h0 : 0 ∉ rest.map Prod.fst)
    (hskip : b ∉ rest.map Prod.fst) :
    (f.moveOp b i q).code ((0, e₀) :: rest) =
      (f.opsOf 0).map .op ++ .op q :: (e₀ ++ f.code rest) := by
  rw [code_cons, code_moveOp_of_not_mem h0 hskip, opsOf_moveOp_zero hb hblocks]
  simp

/-- The code of a walk that visits the block of the moved operation. -/
theorem code_moveOp_visit {e : List Instr} {pre post : List Leg} (hb : b ≠ 0)
    (hblocks : f.blocks ≠ []) (ho : (f.opsOf b)[i]? = some o)
    (hnd : (((0, e₀) :: (pre ++ (b, e) :: post)).map Prod.fst).Nodup) :
    f.code ((0, e₀) :: (pre ++ (b, e) :: post)) =
        (f.opsOf 0).map .op ++ ((e₀ ++ f.code pre ++ ((f.opsOf b).take i).map .op) ++
          .op o :: (((f.opsOf b).drop (i + 1)).map .op ++ e ++ f.code post)) ∧
      (f.moveOp b i q).code ((0, e₀) :: (pre ++ (b, e) :: post)) = (f.opsOf 0).map .op ++ .op q ::
          ((e₀ ++ f.code pre ++ ((f.opsOf b).take i).map .op) ++
            (((f.opsOf b).drop (i + 1)).map .op ++ e ++ f.code post)) := by
  simp only [map_cons, map_append, nodup_cons, mem_append, mem_cons, not_or, nodup_append] at hnd
  obtain ⟨⟨h0pre, _, h0post⟩, _, ⟨hbpost, _⟩, hdisj⟩ := hnd
  have hbpre : b ∉ pre.map Prod.fst := fun hmem => hdisj b hmem b (by simp) rfl
  constructor
  · rw [code_cons, code_append, code_cons]
    conv_lhs => rw [eq_take_append_drop ho]
    simp
  · rw [code_cons, code_append, code_cons, code_moveOp_of_not_mem h0pre hbpre,
      code_moveOp_of_not_mem h0post hbpost, opsOf_moveOp_zero hb hblocks, opsOf_moveOp_self hb,
      eraseIdx_eq_take_drop_succ]
    simp

end Code

end FuncOp

/-- In SSA form an operation on entry values is independent of what it passes. -/
theorem independent_of_nodup {A : List Value} {E X : List Instr} {o : Operation}
    {obs : OpKind → Bool} (hfrom : InstrsFrom A (E ++ X))
    (hnd : (A ++ (E ++ (X ++ [Instr.op o])).flatMap Instr.binds).Nodup)
    (huses : ∀ v ∈ o.uses, v ∈ A ++ E.flatMap Instr.binds)
    (hconflict : ∀ p, Instr.op p ∈ X → o.inner.kind.conflicts obs p.inner.kind = false) :
    ∀ x ∈ X, Instr.Independent obs o x := by
  simp only [flatMap_append, flatMap_cons, flatMap_nil, append_nil] at hnd
  rw [← append_assoc, ← append_assoc] at hnd
  obtain ⟨hAEX, _, hbinds⟩ := nodup_append.mp hnd
  obtain ⟨_, _, hX⟩ := nodup_append.mp hAEX
  intro x hx
  have hxbinds : ∀ v ∈ x.binds, v ∈ X.flatMap Instr.binds := fun v hv =>
    mem_flatMap.mpr ⟨x, hx, hv⟩
  constructor
  · intro v hv hused
    have hearlier := hfrom.mem_binds (mem_append_right E hx) hused
    rw [flatMap_append, ← append_assoc] at hearlier
    exact hbinds v hearlier v hv rfl
  · intro v hv hused
    exact hX v (huses v hused) v (hxbinds v hv) rfl
  · intro v hv hv'
    exact hbinds v (mem_append_right _ (hxbinds v hv')) v hv rfl
  · rintro p rfl
    exact hconflict p hx

/-- What is bound in the entry block is not bound again. -/
theorem not_mem_binds_of_nodup {A : List Value} {E R : List Instr} {v : Value}
    (h : (A ++ (E ++ R).flatMap Instr.binds).Nodup) (hv : v ∈ A ++ E.flatMap Instr.binds) :
    ∀ x ∈ R, v ∉ x.binds := by
  rw [flatMap_append, ← append_assoc] at h
  intro x hx hvx
  exact (nodup_append.mp h).2.2 v hv v (mem_flatMap.mpr ⟨x, hx, hvx⟩) rfl

theorem guardHolds_iff {Val : Type} {I : Interp Val} {ps : List (Value × Bool)}
    {env : Value → Val} :
    guardHolds I (ps.map Prod.fst) (ps.map Prod.snd) env = true ↔
      ∀ p ∈ ps, I.truth (env p.1) = p.2 := by
  rw [guardHolds, zip_map', all_eq_true]
  simp

section Effects

variable {Val : Type} [Inhabited Val] [DecidableEq Val] {I : Interp Val} {obs : OpKind → Bool}
  {X Y R : List Instr} {op : PlainOp} {id : OpId} {ps : List (Value × Bool)}

/-- A moved operation on a walk that visits its block. -/
theorem execInstrs_visit {o : Operation} (h : ∀ x ∈ X, Instr.Independent obs o x) (s : State Val) :
    execInstrs I obs (.op o :: (X ++ Y)) s = execInstrs I obs (X ++ .op o :: Y) s := by
  simp only [execInstrs_cons, execInstrs_append, Instr.step, Option.bind_some, execInstrs_move h]
  cases execInstrs I obs X s <;> rfl

/-- The walk passes the tests of the guard, or fails with and without it. -/
theorem execInstrs_guard_visit (h : ∀ x ∈ X, Instr.Independent obs (.plain op) x)
    (htests : ∀ p ∈ ps, Instr.test p.1 p.2 ∈ X) (hbinds : ∀ p ∈ ps, ∀ x ∈ X, p.1 ∉ x.binds)
    (s : State Val) :
    execInstrs I obs (.op (.guard id (ps.map Prod.fst) (ps.map Prod.snd) op) :: (X ++ Y)) s =
      execInstrs I obs (X ++ .op (.plain op) :: Y) s := by
  rw [← execInstrs_visit h]
  by_cases hg : ∀ p ∈ ps, I.truth (s.env p.1) = p.2
  · have hrun : step I obs (.guard id (ps.map Prod.fst) (ps.map Prod.snd) op) s =
        op.step I obs s := if_pos (guardHolds_iff.mpr hg)
    rw [execInstrs_cons, Instr.step, hrun]
    rfl
  · have hskip : step I obs (.guard id (ps.map Prod.fst) (ps.map Prod.snd) op) s = s :=
      if_neg (mt guardHolds_iff.mp hg)
    simp only [not_forall] at hg
    obtain ⟨p, hp, hfails⟩ := hg
    have hnone : execInstrs I obs X s = none :=
      execInstrs_eq_none (htests p hp) (hbinds p hp) hfails
    rw [execInstrs_visit h, execInstrs_cons, Instr.step, hskip, Option.bind_some,
      execInstrs_append, execInstrs_append, hnone]
    rfl

/-- A pure operation on a walk that does not visit its block. -/
theorem outcome_pure_skip {A : List Value} (hpure : op.kind.isPure)
    (hR : InstrsFrom A R) (hbinds : ∀ v ∈ A, v ∉ op.results.map Prod.fst) (s : State Val) :
    outcome (execInstrs I effects (.op (.plain op) :: R) s) =
      outcome (execInstrs I effects R s) := by
  refine outcome_execInstrs_congr hR ⟨?_, ?_⟩ ?_
  · intro v hv
    exact step_env_of_not_mem (hbinds v hv)
  · intro c _
    exact step_cells_of_ne (by simp [OpKind.writes_of_isPure hpure])
  · rw [step_trace]
    simp [records, PlainOp.recorded, OpKind.effects_of_isPure hpure]

/-- A guard on a walk that does not visit the block of its operation. -/
theorem execInstrs_guard_skip {p : Value × Bool} (hp : p ∈ ps) (htest : .test p.1 (!p.2) ∈ R)
    (hbinds : ∀ x ∈ R, p.1 ∉ x.binds) (hres : p.1 ∉ op.results.map Prod.fst)
    (s : State Val) :
    execInstrs I obs (.op (.guard id (ps.map Prod.fst) (ps.map Prod.snd) op) :: R) s =
      execInstrs I obs R s := by
  rw [execInstrs_cons, Instr.step, Option.bind_some]
  by_cases hg : ∀ p ∈ ps, I.truth (s.env p.1) = p.2
  · have htruth := hg p hp
    rw [execInstrs_eq_none htest hbinds, execInstrs_eq_none htest hbinds]
    · rw [htruth]
      cases p.2 <;> simp
    · rw [step_env_of_not_mem hres, htruth]
      cases p.2 <;> simp
  · have hskip : step I obs (.guard id (ps.map Prod.fst) (ps.map Prod.snd) op) s = s :=
      if_neg (mt guardHolds_iff.mp hg)
    rw [hskip]

end Effects

namespace FuncOp

variable {f : FuncOp} {b i : Nat} {o : Operation} {a : OpAction}

/-- The two kinds of lifted operations. -/
theorem opAction_cases (h : f.opAction b o = some a) :
    ∃ op, o = .plain op ∧ (∀ v ∈ op.operands, f.definedInEntry v = true) ∧
      (op.kind.isPure = true ∧ f.lifted a op = .plain op ∨
        effects op.kind = true ∧ ∃ ps, f.foldPredicates f.blocks.length b = some ps ∧
          f.lifted a op = .guard f.nextId (ps.map Prod.fst) (ps.map Prod.snd) op) := by
  unfold opAction at h
  split at h
  · cases h
  · next op =>
      split_ifs at h with hent hpure heff
      · cases h
        exact ⟨op, rfl, all_eq_true.mp hent, Or.inl ⟨hpure, rfl⟩⟩
      · obtain ⟨ps, hps, rfl⟩ := Option.map_eq_some_iff.mp h
        exact ⟨op, rfl, all_eq_true.mp hent, Or.inr ⟨heff, ps, hps, rfl⟩⟩

theorem mem_defs_of_definedInEntry {v : Value} (h : f.definedInEntry v = true) :
    v ∈ f.argsOf 0 ++ ((f.opsOf 0).map Instr.op).flatMap Instr.defs := by
  simp only [definedInEntry, Bool.or_eq_true, decide_eq_true_eq, any_eq_true] at h
  rw [mem_append, flatMap_map, mem_flatMap]
  exact h

theorem mem_binds_of_definedInEntry {v : Value} (h : f.definedInEntry v = true) :
    v ∈ f.argsOf 0 ++ ((f.opsOf 0).map Instr.op).flatMap Instr.binds := by
  exact append_defs_subset _ _ (mem_defs_of_definedInEntry h)

theorem blocks_ne_nil (h : (f.opsOf b)[i]? = some o) : f.blocks ≠ [] := by
  intro hnil
  simp [opsOf, hnil] at h

/-- What an operation of a visited block passes on the walk. -/
theorem passes_of_mem {e₀ e : List Instr} {pre post : List Leg}
    (hw : f.Walk 0 ((0, e₀) :: (pre ++ (b, e) :: post))) (h0 : 0 ∉ pre.map Prod.fst)
    {p : Operation} (hp : .op p ∈ e₀ ++ f.code pre ++ ((f.opsOf b).take i).map .op) :
    f.Passes b i p := by
  rcases mem_append.mp hp with hp | hp
  · rcases mem_append.mp hp with hp | hp
    · exact absurd hp (op_not_mem_leg hw mem_cons_self p)
    · obtain ⟨leg, hleg, hp⟩ := mem_flatMap.mp hp
      have hmem : leg ∈ (0, e₀) :: (pre ++ (b, e) :: post) := by simp [hleg]
      obtain ⟨q, hq, heq⟩ :=
        mem_map.mp ((mem_append.mp hp).resolve_right (op_not_mem_leg hw hmem p))
      cases heq
      refine Or.inr ⟨leg.1, ?_, ?_, hq⟩
      · intro hzero
        exact h0 (hzero ▸ mem_map_of_mem hleg)
      · rw [← cons_append] at hw
        exact hw.reaches leg (by simp [hleg])
  · obtain ⟨q, hq, heq⟩ := mem_map.mp hp
    cases heq
    exact Or.inl hq

theorem test_mem_of_leg {e₀ : List Instr} {rest : List Leg} {x : Instr} {l : Leg}
    (hl : l ∈ (0, e₀) :: rest) (hx : x ∈ l.2) : x ∈ e₀ ++ f.code rest := by
  rcases mem_cons.mp hl with rfl | hl
  · exact mem_append_left _ hx
  · exact mem_append_right _ (mem_flatMap.mpr ⟨l, hl, mem_append_right _ hx⟩)

section Outcome

variable {Val : Type} [Inhabited Val] [DecidableEq Val] {I : Interp Val}

section

variable (hf : f.SsaForm) (hb : b ≠ 0) (ho : (f.opsOf b)[i]? = some o)
  (ha : f.opAction b o = some a)
include hf hb ho ha

/-- A walk that visits the block. -/
theorem outcome_moveOp_visit
    (hsafe : ∀ p, f.Passes b i p → o.inner.kind.conflicts effects p.inner.kind = false)
    {e₀ e : List Instr} {pre post : List Leg}
    (hw : f.Walk 0 ((0, e₀) :: (pre ++ (b, e) :: post))) (s : State Val) :
    execInstrs I effects ((f.moveOp b i (f.lifted a o.inner)).code
        ((0, e₀) :: (pre ++ (b, e) :: post))) s =
      execInstrs I effects (f.code ((0, e₀) :: (pre ++ (b, e) :: post))) s := by
  have hnd := hf.acyclic.walk_nodup hw
  have h0 : 0 ∉ pre.map Prod.fst := by
    have := (nodup_cons.mp hnd).1
    simp only [map_append, mem_append, not_or] at this
    exact this.1
  obtain ⟨hcode, hcode'⟩ :=
    code_moveOp_visit (q := f.lifted a o.inner) hb (blocks_ne_nil ho) ho hnd
  have hfrom := hf.uses _ hw
  have hbinds := hf.nodup_code hw
  rw [hcode, hcode', execInstrs_append, execInstrs_append, execInstrs_map_op, Option.bind_some,
    Option.bind_some]
  rw [hcode] at hfrom hbinds
  have hpasses := fun p => passes_of_mem (i := i) (p := p) hw h0
  have htests : ∀ n ps, f.foldPredicates n b = some ps → ∀ p ∈ ps,
      .test p.1 p.2 ∈ e₀ ++ f.code pre ++ ((f.opsOf b).take i).map .op := by
    intro n ps hps p hp
    rw [← cons_append] at hw
    obtain ⟨l, hl, htest⟩ := tests_of_visit hps hw rfl p hp
    exact mem_append_left _ (test_mem_of_leg hl htest)
  generalize e₀ ++ f.code pre ++ ((f.opsOf b).take i).map .op = X at *
  obtain ⟨op, rfl, hent, hkind⟩ := opAction_cases ha
  have huses : ∀ v ∈ (plain op).uses,
      v ∈ f.argsOf 0 ++ ((f.opsOf 0).map Instr.op).flatMap Instr.binds := by
    intro v hv
    refine mem_binds_of_definedInEntry (hent v ?_)
    simpa [mem_uses] using hv
  have hindep : ∀ x ∈ X, Instr.Independent effects (.plain op) x := by
    rw [← append_assoc] at hfrom
    refine independent_of_nodup (instrsFrom_append.mp hfrom).1 (hbinds.sublist ?_) huses
      fun p hp => hsafe p (hpasses p hp)
    simp
  rcases hkind with ⟨_, hlifted⟩ | ⟨_, ps, hps, hlifted⟩
  · rw [inner_plain, hlifted]
    exact execInstrs_visit hindep _
  · rw [inner_plain, hlifted]
    refine execInstrs_guard_visit hindep (htests _ ps hps) ?_ _
    intro p hp x hx
    have hcond := mem_binds_of_definedInEntry (definedInEntry_of_mem hps p hp)
    exact not_mem_binds_of_nodup hbinds hcond x (mem_append_left _ hx)

/-- A walk that does not visit the block. -/
theorem outcome_moveOp_skip {e₀ : List Instr} {rest : List Leg}
    (hw : f.Walk 0 ((0, e₀) :: rest)) (hskip : b ∉ rest.map Prod.fst) (s : State Val) :
    outcome (execInstrs I effects
        ((f.moveOp b i (f.lifted a o.inner)).code ((0, e₀) :: rest)) s) =
      outcome (execInstrs I effects (f.code ((0, e₀) :: rest)) s) := by
  have h0 : 0 ∉ rest.map Prod.fst := (nodup_cons.mp (hf.acyclic.walk_nodup hw)).1
  have hfrom := hf.uses _ hw
  have hbinds := hf.nodup_code hw
  rw [code_cons, append_assoc] at hfrom hbinds
  rw [code_moveOp_skip hb (blocks_ne_nil ho) h0 hskip, code_cons, append_assoc,
    execInstrs_append, execInstrs_append, execInstrs_map_op, Option.bind_some, Option.bind_some]
  obtain ⟨op, rfl, hent, hkind⟩ := opAction_cases ha
  have hmem : .plain op ∈ f.opsOf b := mem_of_getElem? ho
  rcases hkind with ⟨hpure, hlifted⟩ | ⟨heff, ps, hps, hlifted⟩
  · rw [inner_plain, hlifted]
    refine outcome_pure_skip hpure (instrsFrom_append.mp hfrom).2 ?_ _
    intro v hv hres
    refine hf.disjoint 0 b hb.symm (a := v) ?_ ?_
    · have hent := append_defs_subset _ _ hv
      rwa [flatMap_map] at hent
    · exact mem_append_right _ (mem_flatMap.mpr ⟨_, hmem, hres⟩)
  · rw [inner_plain, hlifted]
    rcases visits_or_fails hps hw with hvisit | ⟨p, hp, l, hl, htest⟩
    · rcases mem_cons.mp hvisit with hzero | hvisit
      · exact absurd hzero hb
      · exact absurd hvisit hskip
    · have hcond := mem_binds_of_definedInEntry (definedInEntry_of_mem hps p hp)
      have hresults : op.results = [] := hf.results b _ hmem heff
      rw [execInstrs_guard_skip hp (test_mem_of_leg hl htest)
        (not_mem_binds_of_nodup hbinds hcond) (by simp [hresults])]

/-- On every walk the lifted operation does what it did before. -/
theorem outcome_moveOp
    (hsafe : ∀ p, f.Passes b i p → o.inner.kind.conflicts effects p.inner.kind = false)
    {w : List Leg} (hw : f.Walk 0 w) (s : State Val) :
    outcome (execInstrs I effects ((f.moveOp b i (f.lifted a o.inner)).code w) s) =
      outcome (execInstrs I effects (f.code w) s) := by
  obtain ⟨e₀, rest, rfl⟩ := hw.head
  by_cases hvisit : b ∈ rest.map Prod.fst
  · obtain ⟨pre, e, post, rfl⟩ := exists_visit hvisit
    rw [outcome_moveOp_visit hf hb ho ha hsafe hw]
  · exact outcome_moveOp_skip hf hb ho ha hw hvisit s

end

end Outcome

end FuncOp

end Alkali
