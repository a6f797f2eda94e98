import Alkali.Linearize.Duplicate
import Alkali.Linearize.Preserve

/-!
# Replaced operations on control-flow graphs

An operation without effects is erased, and its results are replaced by other values. The
function does the same if these are what the operation computes wherever it is reached. In
common subexpression elimination they are the results of an equal operation that
dominates the erased one, and nothing between the two writes the cell that they read.
-/

namespace Alkali.FuncOp

open List

variable (f : FuncOp)

def eraseOp (c j : Nat) : FuncOp :=
  { f with blocks := f.blocks.modify c fun blk => { blk with ops := blk.ops.eraseIdx j } }

def rename (σ : Value → Value) : FuncOp :=
  { f with
    blocks := f.blocks.map fun blk =>
      { blk with ops := blk.ops.map (Operation.rename σ), term := blk.term.rename σ } }

/-- Erase an operation and replace its results. -/
def redirect (c j : Nat) (σ : Value → Value) : FuncOp := (f.eraseOp c j).rename σ

/-- The instructions up to an operation of a block, after a walk to the block. -/
def codeTo (pre : List Leg) (c j : Nat) : List Instr :=
  f.code pre ++ ((f.opsOf c).take j).map .op

/-- The operation at `(b, i)` is executed before the one at `(c, j)`. -/
def Dominates (b i c j : Nat) : Prop :=
  b = c ∧ i < j ∨ b ≠ c ∧ ∀ pre e post, f.Walk 0 (pre ++ (c, e) :: post) → b ∈ pre.map Prod.fst

/-- The operations that can be executed between those at `(b, i)` and `(c, j)`. -/
def Between (b i c j : Nat) (q : Operation) : Prop :=
  if b = c then q ∈ ((f.opsOf c).take j).drop (i + 1)
  else
    q ∈ (f.opsOf b).drop (i + 1) ∨ q ∈ (f.opsOf c).take j ∨
      ∃ d, Relation.TransGen f.Edge b d ∧ Relation.TransGen f.Edge d c ∧ q ∈ f.opsOf d

def renameLeg (σ : Value → Value) (leg : Leg) : Leg := (leg.1, leg.2.map (Instr.rename σ))

section Graph

variable {f} {b c j : Nat} {σ : Value → Value} (d : Nat)

theorem getElem?_eraseOp : (f.eraseOp c j).blocks[d]? = (f.blocks[d]?).map fun blk =>
      { blk with ops := if d = c then blk.ops.eraseIdx j else blk.ops } := by
  simp only [eraseOp, getElem?_modify, @eq_comm _ c d]
  cases f.blocks[d]? with
  | none => rfl
  | some blk =>
    split_ifs <;> rfl

theorem opsOf_eraseOp_self : (f.eraseOp c j).opsOf c = (f.opsOf c).eraseIdx j := by
  cases hblk : f.blocks[c]? with
  | none => simp [opsOf, getElem?_eraseOp, hblk]
  | some blk => simp [opsOf, getElem?_eraseOp, hblk]

theorem opsOf_eraseOp_of_ne {d : Nat} (h : d ≠ c) : (f.eraseOp c j).opsOf d = f.opsOf d := by
  cases hblk : f.blocks[d]? with
  | none => simp [opsOf, getElem?_eraseOp, hblk]
  | some blk => simp [opsOf, getElem?_eraseOp, hblk, h]

@[simp] theorem argsOf_eraseOp : (f.eraseOp c j).argsOf d = f.argsOf d := by
  simp [argsOf, getElem?_eraseOp, Function.comp_def]

@[simp] theorem termOf_eraseOp : (f.eraseOp c j).termOf d = f.termOf d := by
  simp [termOf, getElem?_eraseOp, Function.comp_def]

@[simp] theorem opsOf_rename : (f.rename σ).opsOf d = (f.opsOf d).map (Operation.rename σ) := by
  cases hblk : f.blocks[d]? <;> simp [opsOf, rename, hblk]

@[simp] theorem argsOf_rename : (f.rename σ).argsOf d = f.argsOf d := by
  simp [argsOf, rename, Function.comp_def]

@[simp] theorem termOf_rename : (f.rename σ).termOf d = (f.termOf d).rename σ := by
  cases hblk : f.blocks[d]? <;> simp [termOf, rename, hblk, Terminator.rename]

theorem edges_rename :
    (f.rename σ).edges d = (f.edges d).map fun e => (e.1.map (Instr.rename σ), e.2) := by
  rw [edges, edges, termOf_rename]
  cases f.termOf d <;> simp [Terminator.rename, Instr.rename]

theorem edges_eraseOp : (f.eraseOp c j).edges d = f.edges d := by
  simp [edges]

variable {w : List Leg}

theorem walk_rename (h : f.Walk b w) : ((f.eraseOp c j).rename σ).Walk b (w.map (renameLeg σ)) := by
  induction h with
  | stop hterm => exact .stop (by rw [termOf_rename, termOf_eraseOp, hterm]; rfl)
  | go hedge _ ih =>
    refine .go ?_ ih
    rw [edges_rename, edges_eraseOp]
    exact mem_map_of_mem hedge

theorem walk_of_rename {w' : List Leg} (h : ((f.eraseOp c j).rename σ).Walk b w') :
    ∃ w, f.Walk b w ∧ w' = w.map (renameLeg σ) := by
  induction h with
  | @stop b hterm =>
    rw [termOf_rename, termOf_eraseOp] at hterm
    refine ⟨_, .stop ?_, rfl⟩
    cases hf : f.termOf b with
    | terminate => rfl
    | br => rw [hf] at hterm; cases hterm
    | condBr => rw [hf] at hterm; cases hterm
  | go hedge _ ih =>
    obtain ⟨w, hw, rfl⟩ := ih
    rw [edges_rename, edges_eraseOp] at hedge
    obtain ⟨⟨instrs, d⟩, hmem, heq⟩ := mem_map.mp hedge
    cases heq
    exact ⟨_, .go hmem hw, rfl⟩

theorem code_rename (w : List Leg) :
    (f.rename σ).code (w.map (renameLeg σ)) = (f.code w).map (Instr.rename σ) := by
  induction w with
  | nil => rfl
  | cons leg w ih =>
    rw [map_cons, code_cons, code_cons, ih, opsOf_rename]
    simp [renameLeg, Instr.rename, Function.comp_def]

theorem code_eraseOp_skip (h : c ∉ w.map Prod.fst) : (f.eraseOp c j).code w = f.code w := by
  refine code_congr fun leg hleg => opsOf_eraseOp_of_ne ?_
  rintro rfl
  exact h (mem_map_of_mem hleg)

end Graph

section Code

variable {f} {b i c j : Nat} {o p : Operation}

/-- Where the erased operation stood on a walk. -/
theorem code_eraseOp_self (hp : (f.opsOf c)[j]? = some p) {pre post : List Leg} {e : List Instr}
    (hnd : ((pre ++ (c, e) :: post).map Prod.fst).Nodup) :
    ∃ Y, f.code (pre ++ (c, e) :: post) = f.codeTo pre c j ++ .op p :: Y ∧
      (f.eraseOp c j).code (pre ++ (c, e) :: post) = f.codeTo pre c j ++ Y := by
  simp only [map_append, map_cons, nodup_append, nodup_cons] at hnd
  obtain ⟨_, ⟨hpost, _⟩, hpre⟩ := hnd
  refine ⟨((f.opsOf c).drop (j + 1)).map .op ++ e ++ f.code post, ?_, ?_⟩
  · rw [code_append, code_cons, codeTo]
    conv_lhs => rw [eq_take_append_drop hp]
    simp
  · rw [code_append, code_cons, code_eraseOp_skip hpost, opsOf_eraseOp_self,
      code_eraseOp_skip fun hmem => hpre c hmem c (by simp) rfl, eraseIdx_eq_take_drop_succ, codeTo]
    simp

/-- Between the two operations on a walk there are only those that can be. -/
theorem codeTo_of_dominates (ho : (f.opsOf b)[i]? = some o)
    (hdom : f.Dominates b i c j) {pre post : List Leg} {e : List Instr}
    (hw : f.Walk 0 (pre ++ (c, e) :: post)) :
    ∃ X M, f.codeTo pre c j = X ++ .op o :: M ∧ ∀ q, .op q ∈ M → f.Between b i c j q := by
  rcases hdom with ⟨rfl, hij⟩ | ⟨hbc, hdom⟩
  · have ho' : ((f.opsOf b).take j)[i]? = some o := by rwa [getElem?_take_of_lt hij]
    refine ⟨f.code pre ++ (((f.opsOf b).take j).take i).map .op,
      (((f.opsOf b).take j).drop (i + 1)).map .op, ?_, ?_⟩
    · rw [codeTo]
      conv_lhs => rw [eq_take_append_drop ho']
      simp
    · intro q hq
      obtain ⟨q, hq, heq⟩ := mem_map.mp hq
      cases heq
      rwa [Between, if_pos rfl]
  · obtain ⟨pre, e', mid, rfl⟩ := exists_visit (hdom pre e post hw)
    refine ⟨f.code pre ++ ((f.opsOf b).take i).map .op, ((f.opsOf b).drop (i + 1)).map .op ++ e' ++
      f.code mid ++ ((f.opsOf c).take j).map .op, ?_, ?_⟩
    · rw [codeTo, code_append, code_cons]
      conv_lhs => rw [eq_take_append_drop ho]
      simp
    · intro q hq
      rw [Between, if_neg hbc]
      rw [append_assoc] at hw
      simp only [mem_append, mem_map, Instr.op.injEq, exists_eq_right] at hq
      rcases hq with ((hq | hq) | hq) | hq
      · exact Or.inl hq
      · have hleg : (b, e') ∈ pre ++ ((b, e') :: mid ++ (c, e) :: post) := by simp
        exact absurd hq (op_not_mem_leg hw hleg q)
      · obtain ⟨leg, hleg, hq⟩ := mem_flatMap.mp hq
        have hmem := (mem_append.mp hq).resolve_right (op_not_mem_leg hw (by simp [hleg]) q)
        obtain ⟨l, r, rfl⟩ := append_of_mem hleg
        refine Or.inr (Or.inr ⟨leg.1, ?_, ?_, ?_⟩)
        · have hpath : f.Walk 0 ((pre ++ (b, e') :: l) ++ leg :: (r ++ (c, e) :: post)) := by
            simpa using hw
          exact hpath.reaches (b, e') (by simp)
        · have hpath : f.Walk 0 ((pre ++ (b, e') :: (l ++ leg :: r)) ++ (c, e) :: post) := by
            simpa using hw
          exact hpath.reaches leg (by simp)
        · simpa using hmem
      · exact Or.inr (Or.inl hq)

end Code

section Redirection

variable {f} {c j : Nat} {p : PlainOp} {σ : Value → Value}

/-- The results of an operation can be replaced by values that are available before it. -/
structure Redirects (f : FuncOp) (c j : Nat) (p : PlainOp) (σ : Value → Value) : Prop where
  op : (f.opsOf c)[j]? = some (.plain p)
  fixed : ∀ v ∉ p.results.map Prod.fst, σ v = v
  available : ∀ pre e post, f.Walk 0 (pre ++ (c, e) :: post) → ∀ v ∈ p.results.map Prod.fst,
    σ v ∈ f.argsOf 0 ++ (f.codeTo pre c j).flatMap Instr.defs

section

variable (hf : f.SsaForm) (h : f.Redirects c j p σ)
include hf h

variable {w : List Leg}

/-- Where the operation stands on a walk. -/
theorem SsaForm.redirect_at {pre post : List Leg} {e : List Instr}
    (hw : f.Walk 0 (pre ++ (c, e) :: post)) :
    ∃ Y, Redirect (f.argsOf 0) (f.codeTo pre c j) p Y σ ∧
      f.code (pre ++ (c, e) :: post) = f.codeTo pre c j ++ .op (.plain p) :: Y ∧
      (f.eraseOp c j).code (pre ++ (c, e) :: post) = f.codeTo pre c j ++ Y := by
  obtain ⟨Y, hcode, herased⟩ := code_eraseOp_self h.op (hf.acyclic.walk_nodup hw)
  exact ⟨Y, ⟨hcode ▸ hf.uses _ hw, hcode ▸ hf.nodup_code hw, h.fixed, h.available pre e post hw⟩,
    hcode, herased⟩

/-- A walk visits the operation, or its results are not used. -/
theorem SsaForm.code_redirect (hw : f.Walk 0 w) :
    (∃ pre e post Y, w = pre ++ (c, e) :: post ∧
      Redirect (f.argsOf 0) (f.codeTo pre c j) p Y σ ∧
      f.code w = f.codeTo pre c j ++ .op (.plain p) :: Y ∧
      (f.redirect c j σ).code (w.map (renameLeg σ)) =
        (f.codeTo pre c j ++ Y).map (Instr.rename σ)) ∨
    (f.redirect c j σ).code (w.map (renameLeg σ)) = f.code w := by
  rw [redirect, code_rename]
  by_cases hvisit : c ∈ w.map Prod.fst
  · obtain ⟨pre, e, post, rfl⟩ := exists_visit hvisit
    obtain ⟨Y, hredirect, hcode, herased⟩ := hf.redirect_at h hw
    exact Or.inl ⟨pre, e, post, Y, rfl, hredirect, hcode, by rw [herased]⟩
  · refine Or.inr ?_
    rw [code_eraseOp_skip hvisit]
    refine map_rename_eq_self fun x hx v hv => h.fixed v fun hres => ?_
    have hmem := (hf.uses w hw).mem_binds hx hv
    rw [binds_code hw] at hmem
    obtain ⟨d, hd, hvd⟩ := mem_flatMap.mp hmem
    refine hf.disjoint d c (fun heq => hvisit (heq ▸ hd)) hvd (mem_append_right _ ?_)
    exact mem_flatMap.mpr ⟨.plain p, mem_of_getElem? h.op, hres⟩

/-- On every walk the function does what it did before. -/
theorem outcome_redirect {Val : Type} [Inhabited Val] [DecidableEq Val] {I : Interp Val}
    {s : State Val} (hsame : ∀ pre e post t, f.Walk 0 (pre ++ (c, e) :: post) →
      execInstrs I effects (f.codeTo pre c j) s = some t → Renamed σ (p.step I effects t) t)
    (hw : f.Walk 0 w) :
    outcome (execInstrs I effects ((f.redirect c j σ).code (w.map (renameLeg σ))) s) =
      outcome (execInstrs I effects (f.code w) s) := by
  rcases hf.code_redirect h hw with ⟨pre, e, post, Y, rfl, hredirect, hcode, hcode'⟩ | hcode
  · rw [hcode, hcode']
    exact hredirect.outcome_eq fun t => hsame pre e post t hw
  · rw [hcode]

/-- The replacement keeps SSA form. -/
theorem SsaForm.redirect : (f.redirect c j σ).SsaForm := by
  have hops : ∀ d, ∃ ops : List Operation, (f.redirect c j σ).opsOf d =
      ops.map (Operation.rename σ) ∧ ops.Sublist (f.opsOf d) := by
    intro d
    refine ⟨_, opsOf_rename d, ?_⟩
    by_cases hd : d = c
    · subst hd
      rw [opsOf_eraseOp_self]
      exact eraseIdx_sublist _ _
    · rw [opsOf_eraseOp_of_ne hd]
  have hbindings : ∀ d, ((f.redirect c j σ).bindingsOf d).Sublist (f.bindingsOf d) := by
    intro d
    obtain ⟨ops, heq, hsub⟩ := hops d
    rw [bindingsOf, bindingsOf, heq, flatMap_map]
    simp only [FuncOp.redirect, argsOf_rename, argsOf_eraseOp, Operation.binds_rename]
    exact List.Sublist.append_left (hsub.flatMap _) _
  refine ⟨?_, ?_, fun d => (hf.nodup d).sublist (hbindings d), ?_, ?_, ?_⟩
  · rw [predecessors_eq_nil_iff]
    intro q
    simp only [FuncOp.redirect, termOf_rename, termOf_eraseOp, Terminator.successors_rename]
    exact predecessors_eq_nil_iff.mp hf.entry q
  · obtain ⟨rank, hrank⟩ := hf.acyclic
    refine ⟨rank, fun d instrs d' hedge => ?_⟩
    rw [FuncOp.redirect, edges_rename, edges_eraseOp] at hedge
    obtain ⟨⟨instrs', _⟩, hmem, heq⟩ := mem_map.mp hedge
    cases heq
    exact hrank d instrs' _ hmem
  · intro d d' hne v hv hv'
    exact hf.disjoint d d' hne ((hbindings d).subset hv) ((hbindings d').subset hv')
  · intro w' hw'
    obtain ⟨w, hw, rfl⟩ := walk_of_rename hw'
    have hargs : (f.redirect c j σ).argsOf 0 = f.argsOf 0 := by
      rw [FuncOp.redirect, argsOf_rename, argsOf_eraseOp]
    rw [hargs]
    rcases hf.code_redirect h hw with ⟨_, _, _, _, _, hredirect, _, hcode'⟩ | hcode
    · rw [hcode']
      exact hredirect.uses_replaced
    · rw [hcode]
      exact hf.uses w hw
  · intro d q hq heff
    obtain ⟨ops, heq, hsub⟩ := hops d
    rw [heq] at hq
    obtain ⟨q, hmem, rfl⟩ := mem_map.mp hq
    rw [Operation.kind_rename] at heff
    rw [Operation.results_rename]
    exact hf.results d q (hsub.subset hmem) heff

end

end Redirection

section Elimination

variable {f} {b i c j : Nat} {o p : PlainOp}

/-- The results of an operation that dominates another one are available before it. -/
theorem available_of_dominates (ho : (f.opsOf b)[i]? = some (.plain o))
    (hdom : f.Dominates b i c j) {pre post : List Leg} {e : List Instr}
    (hw : f.Walk 0 (pre ++ (c, e) :: post)) {v : Value} (hv : v ∈ o.results.map Prod.fst) :
    v ∈ f.argsOf 0 ++ (f.codeTo pre c j).flatMap Instr.defs := by
  obtain ⟨X, M, hcode, -⟩ := codeTo_of_dominates ho hdom hw
  refine mem_append_right _ (mem_flatMap.mpr ⟨.op (.plain o), ?_, hv⟩)
  simp [hcode]

/-- The elimination asks for an equal operation that dominates another one. -/
structure Eliminates (f : FuncOp) (b i c j : Nat) (o p : PlainOp) : Prop where
  first : (f.opsOf b)[i]? = some (.plain o)
  second : (f.opsOf c)[j]? = some (.plain p)
  same : p.SameAs o
  dominates : f.Dominates b i c j

theorem Eliminates.redirects (h : f.Eliminates b i c j o p) :
    f.Redirects c j p (p.replaces o) where
  op := h.second
  fixed := fun _ => PlainOp.replaces_of_not_mem
  available := fun _ _ _ hw _ hv =>
    available_of_dominates h.first h.dominates hw (h.same.replaces_mem hv)

/-- The results of the first operation are what the second one computes. -/
theorem Eliminates.renamed {Val : Type} [Inhabited Val] [DecidableEq Val] {I : Interp Val}
    (hf : f.SsaForm) (h : f.Eliminates b i c j o p)
    (hsafe : ∀ q, f.Between b i c j q → ∀ cell, o.kind.reads = some cell →
      q.inner.kind.writes ≠ some cell) {pre post : List Leg} {e : List Instr} {s t : State Val}
    (hw : f.Walk 0 (pre ++ (c, e) :: post))
    (ht : execInstrs I effects (f.codeTo pre c j) s = some t) :
    Renamed (p.replaces o) (p.step I effects t) t := by
  obtain ⟨X, M, hcode, hM⟩ := codeTo_of_dominates h.first h.dominates hw
  obtain ⟨Y, hredirect, -, -⟩ := hf.redirect_at h.redirects hw
  rw [hcode] at hredirect ht
  exact hredirect.renamed_of_same h.same (fun q hq => hsafe q (hM q hq)) ht

end Elimination

end Alkali.FuncOp
