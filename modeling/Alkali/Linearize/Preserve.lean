import Alkali.Linearize.Move

/-!
# Lifting an operation keeps SSA form

The lifted operation takes its bindings along into the entry block, from where
they reach every use they reached before.
-/

namespace Alkali.FuncOp

open List

variable {f : FuncOp} {b i : Nat} {o q : Operation} {a : OpAction}

theorem predecessors_eq_nil_iff : f.predecessors b = [] ↔ ∀ q, b ∉ (f.termOf q).successors := by
  constructor
  · intro h q
    rw [← count_eq_zero, ← count_predecessors, h, count_nil]
  · intro h
    refine eq_nil_iff_forall_not_mem.mpr fun q hq => ?_
    have hpos := count_pos_iff.mpr hq
    rw [count_predecessors, count_eq_zero.mpr (h q)] at hpos
    exact Nat.lt_irrefl 0 hpos

theorem SsaForm.ne_zero (hf : f.SsaForm) (h : f.predecessors b ≠ []) : b ≠ 0 := by
  rintro rfl
  exact h hf.entry

section Bindings

theorem bindingsOf_moveOp_zero (hb : b ≠ 0) (h : f.blocks ≠ []) :
    (f.moveOp b i q).bindingsOf 0 = f.bindingsOf 0 ++ q.binds := by
  simp [bindingsOf, opsOf_moveOp_zero hb h]

theorem bindingsOf_moveOp_of_ne {c : Nat} (hc : c ≠ b) (h0 : c ≠ 0) :
    (f.moveOp b i q).bindingsOf c = f.bindingsOf c := by
  simp [bindingsOf, opsOf_moveOp_of_ne hc h0]

/-- The block that the operation leaves keeps its other bindings. -/
theorem bindingsOf_moveOp_self (hb : b ≠ 0) (ho : (f.opsOf b)[i]? = some o) :
    (f.bindingsOf b).Perm ((f.moveOp b i q).bindingsOf b ++ o.binds) := by
  rw [bindingsOf, bindingsOf, argsOf_moveOp, opsOf_moveOp_self hb, append_assoc,
    eraseIdx_eq_take_drop_succ]
  conv_lhs => rw [eq_take_append_drop ho]
  rw [flatMap_append, flatMap_append, flatMap_cons, append_assoc]
  exact (perm_append_comm.append_left _).append_left _

/-- The bindings of a function whose operation has moved with its results. -/
theorem SsaForm.bindings_moveOp (hf : f.SsaForm) (hb : b ≠ 0) (ho : (f.opsOf b)[i]? = some o)
    (hbinds : q.binds = o.binds) :
    (∀ c, ((f.moveOp b i q).bindingsOf c).Nodup) ∧
      ∀ c d, c ≠ d → ((f.moveOp b i q).bindingsOf c).Disjoint
        ((f.moveOp b i q).bindingsOf d) := by
  have hperm := bindingsOf_moveOp_self (q := q) hb ho
  have hself := hperm.nodup_iff.mp (hf.nodup b)
  have hzero := bindingsOf_moveOp_zero (i := i) (q := q) hb (blocks_ne_nil ho)
  have hmem : o.binds ⊆ f.bindingsOf b := fun v hv =>
    hperm.mem_iff.mpr (mem_append_right _ hv)
  have hsub : ∀ c, c ≠ 0 → (f.moveOp b i q).bindingsOf c ⊆ f.bindingsOf c := by
    intro c h0 v hv
    by_cases hc : c = b
    · subst hc
      exact hperm.mem_iff.mpr (mem_append_left _ hv)
    · rwa [bindingsOf_moveOp_of_ne hc h0] at hv
  have hent : ∀ c, c ≠ 0 → ((f.moveOp b i q).bindingsOf 0).Disjoint
      ((f.moveOp b i q).bindingsOf c) := by
    intro c h0 v hv hvc
    rw [hzero, hbinds] at hv
    rcases mem_append.mp hv with hv | hv
    · exact hf.disjoint 0 c h0.symm hv (hsub c h0 hvc)
    · by_cases hc : c = b
      · subst hc
        exact (nodup_append.mp hself).2.2 v hvc v hv rfl
      · exact hf.disjoint c b hc (hsub c h0 hvc) (hmem hv)
  constructor
  · intro c
    by_cases h0 : c = 0
    · subst h0
      rw [hzero, hbinds, nodup_append]
      refine ⟨hf.nodup 0, (nodup_append.mp hself).2.1, ?_⟩
      rintro v hv _ hv' rfl
      exact hf.disjoint 0 b hb.symm hv (hmem hv')
    · by_cases hc : c = b
      · subst hc
        exact (nodup_append.mp hself).1
      · rw [bindingsOf_moveOp_of_ne hc h0]
        exact hf.nodup c
  · intro c d hcd
    by_cases h0 : c = 0
    · subst h0
      exact hent d hcd.symm
    · by_cases hd : d = 0
      · subst hd
        exact fun v hv hv' => hent c h0 hv' hv
      · exact fun v hv hv' => hf.disjoint c d hcd (hsub c h0 hv) (hsub d hd hv')

end Bindings

section Uses

/-- Moving an operation forward leaves every use behind its definition. -/
theorem instrsFrom_move {A : List Value} {E X Y : List Instr} {x x' : Instr}
    (h : InstrsFrom A (E ++ (X ++ x :: Y))) (huses : ∀ v ∈ x'.uses, v ∈ A ++ E.flatMap Instr.defs)
    (hdefs : x.defs ⊆ x'.defs) : InstrsFrom A (E ++ x' :: (X ++ Y)) := by
  rw [instrsFrom_append, instrsFrom_append] at h
  obtain ⟨hE, hX, _, hY⟩ := h
  rw [instrsFrom_append]
  refine ⟨hE, huses, instrsFrom_append.mpr ⟨hX.mono (subset_append_left _ _), hY.mono ?_⟩⟩
  intro v hv
  simp only [mem_append] at hv ⊢
  rcases hv with (hv | hv) | hv
  · exact Or.inl (Or.inl hv)
  · exact Or.inr hv
  · exact Or.inl (Or.inr (hdefs hv))

theorem instrsFrom_insert {A : List Value} {E R : List Instr} {x : Instr}
    (h : InstrsFrom A (E ++ R)) (huses : ∀ v ∈ x.uses, v ∈ A ++ E.flatMap Instr.defs) :
    InstrsFrom A (E ++ x :: R) := by
  rw [instrsFrom_append] at h ⊢
  exact ⟨h.1, huses, h.2.mono (subset_append_left _ _)⟩

end Uses

/-- What a lifted operation uses is defined in the entry block. -/
theorem SsaForm.lifted_spec (hf : f.SsaForm) (ho : (f.opsOf b)[i]? = some o)
    (ha : f.opAction b o = some a) :
    (f.lifted a o.inner).inner = o.inner ∧ o.defs ⊆ (f.lifted a o.inner).defs ∧
      ∀ v ∈ (f.lifted a o.inner).uses, f.definedInEntry v = true := by
  obtain ⟨op, rfl, hent, ⟨_, hlifted⟩ | ⟨heff, ps, hps, hlifted⟩⟩ := opAction_cases ha
  · rw [Operation.inner_plain, hlifted]
    refine ⟨rfl, List.Subset.refl _, fun v hv => hent v ?_⟩
    simpa [Operation.mem_uses] using hv
  · rw [Operation.inner_plain, hlifted]
    have hres : op.results = [] := hf.results b _ (mem_of_getElem? ho) heff
    refine ⟨rfl, by simp [hres], fun v hv => ?_⟩
    rcases Operation.mem_uses.mp hv with hv | hv
    · obtain ⟨p, hp, rfl⟩ := mem_map.mp hv
      exact definedInEntry_of_mem hps p hp
    · exact hent v hv

/-- Lifting an operation keeps SSA form. -/
theorem SsaForm.moveOp (hf : f.SsaForm) (hb : b ≠ 0) (ho : (f.opsOf b)[i]? = some o)
    (ha : f.opAction b o = some a) : (f.moveOp b i (f.lifted a o.inner)).SsaForm := by
  obtain ⟨hinner, hdefs, huses⟩ := hf.lifted_spec ho ha
  have hbinds : (f.lifted a o.inner).binds = o.binds := by rw [Operation.binds, hinner]; rfl
  obtain ⟨hnd, hdisj⟩ := hf.bindings_moveOp hb ho hbinds
  refine ⟨?_, ?_, hnd, hdisj, ?_, ?_⟩
  · rw [predecessors_eq_nil_iff]
    intro q
    rw [termOf_moveOp]
    exact predecessors_eq_nil_iff.mp hf.entry q
  · obtain ⟨rank, hrank⟩ := hf.acyclic
    exact ⟨rank, fun c instrs d hedge => hrank c instrs d (by rwa [edges_moveOp] at hedge)⟩
  · intro w hw
    have hwalk := walk_of_moveOp hw
    obtain ⟨e₀, rest, rfl⟩ := hwalk.head
    have hfrom := hf.uses _ hwalk
    have hnd := hf.acyclic.walk_nodup hwalk
    have h0 : 0 ∉ rest.map Prod.fst := (nodup_cons.mp hnd).1
    rw [argsOf_moveOp]
    by_cases hvisit : b ∈ rest.map Prod.fst
    · obtain ⟨pre, e, post, rfl⟩ := exists_visit hvisit
      obtain ⟨hcode, hcode'⟩ :=
        code_moveOp_visit (q := f.lifted a o.inner) hb (blocks_ne_nil ho) ho hnd
      rw [hcode] at hfrom
      rw [hcode']
      exact instrsFrom_move hfrom (fun v hv => mem_defs_of_definedInEntry (huses v hv)) hdefs
    · rw [code_cons, append_assoc] at hfrom
      rw [code_moveOp_skip hb (blocks_ne_nil ho) h0 hvisit]
      exact instrsFrom_insert hfrom fun v hv => mem_defs_of_definedInEntry (huses v hv)
  · intro c p hp heff
    by_cases h0 : c = 0
    · subst h0
      rw [opsOf_moveOp_zero hb (blocks_ne_nil ho)] at hp
      rcases mem_append.mp hp with hp | hp
      · exact hf.results 0 p hp heff
      · rw [mem_singleton.mp hp, hinner] at heff ⊢
        exact hf.results b o (mem_of_getElem? ho) heff
    · by_cases hc : c = b
      · subst hc
        rw [opsOf_moveOp_self hb] at hp
        exact hf.results c p (mem_of_mem_eraseIdx hp) heff
      · rw [opsOf_moveOp_of_ne hc h0] at hp
        exact hf.results c p hp heff

end Alkali.FuncOp
