import Alkali.Linearize.Patterns
import Mathlib.Tactic

/-!
# `EP2LinearizePass`

The pass lifts operations, canonicalizes with the patterns of MLIR and those of the
dialect, and eliminates common subexpressions, until nothing changes. Its run is a
sequence of such rewrites. The handler keeps its effects through every run in which no
operation moves past one it conflicts with, none that creates an object is merged with
another one, none is replaced by an equal one from before a write to what it reads, and
casts keep the values they cast.
-/

namespace Alkali.FuncOp

open List Option

variable {Val : Type} [Inhabited Val] [DecidableEq Val]

/-- For every input both handlers end with the same effects, in the same order,
and leave the same state. -/
def SameEffects (f : FuncOp) (I : Interp Val) (f' : FuncOp) : Prop :=
  ∀ (inputs : List Val) (cells : Cell → Val → Val), ∃ n n' out,
    f.performs I n inputs cells = some out ∧ f'.performs I n' inputs cells = some out

section Effects

variable {f f' f'' : FuncOp} {I : Interp Val} {obs : OpKind → Bool}

theorem runFrom_mono {n m b : Nat} {s t : State Val} (hnm : n ≤ m)
    (h : f.runFrom I obs n b s = some t) : f.runFrom I obs m b s = some t := by
  induction n generalizing m b s with
  | zero => cases h
  | succ n ih =>
    obtain ⟨m, rfl⟩ : ∃ k, m = k + 1 := ⟨m - 1, by omega⟩
    rcases runFrom_succ.mp h with hstop | ⟨e, hedge, u, hinstrs, hrest⟩
    · exact runFrom_succ.mpr (Or.inl hstop)
    · exact runFrom_succ.mpr (Or.inr ⟨e, hedge, u, hinstrs, ih (by omega) hrest⟩)

/-- More fuel does not change what a handler does. -/
theorem performs_unique {n m : Nat} {inputs : List Val} {cells : Cell → Val → Val}
    {out out' : List (Effect Val) × (Cell → Val → Val)}
    (h : f.performs I n inputs cells = some out) (h' : f.performs I m inputs cells = some out') :
    out = out' := by
  obtain ⟨s, hs, rfl⟩ := map_eq_some_iff.mp h
  obtain ⟨t, ht, rfl⟩ := map_eq_some_iff.mp h'
  have hs' := runFrom_mono (Nat.le_max_left n m) hs
  rw [runFrom_mono (Nat.le_max_right n m) ht] at hs'
  cases hs'
  rfl

theorem SameEffects.symm (h : f.SameEffects I f') : f'.SameEffects I f := by
  intro inputs cells
  obtain ⟨n, m, out, hn, hm⟩ := h inputs cells
  exact ⟨m, n, out, hm, hn⟩

theorem SameEffects.trans (h : f.SameEffects I f') (h' : f'.SameEffects I f'') :
    f.SameEffects I f'' := by
  intro inputs cells
  obtain ⟨n, m, out, hn, hm⟩ := h inputs cells
  obtain ⟨m', k, out', hm', hk⟩ := h' inputs cells
  obtain rfl := performs_unique hm hm'
  exact ⟨n, k, out, hn, hk⟩

/-- Functions have the same effects if their walks have the same outcomes. -/
theorem Acyclic.sameEffects (hf : f.Acyclic) (hargs : f'.argsOf 0 = f.argsOf 0)
    (hwalk : ∀ w, f.Walk 0 w → ∃ w', f'.Walk 0 w' ∧ ∀ inputs cells,
      outcome (execInstrs I effects (f'.code w') (initialState (f.argsOf 0) inputs cells)) =
        outcome (execInstrs I effects (f.code w) (initialState (f.argsOf 0) inputs cells))) :
    f.SameEffects I f' := by
  intro inputs cells
  obtain ⟨n, t, hn⟩ := hf.exists_run I effects 0 (initialState (f.argsOf 0) inputs cells)
  obtain ⟨w, hw, hexec⟩ := runFrom_iff.mp ⟨n, hn⟩
  obtain ⟨w', hw', hsame⟩ := hwalk w hw
  have hout := hsame inputs cells
  rw [hexec] at hout
  obtain ⟨t', ht', heq⟩ := map_eq_some_iff.mp hout
  obtain ⟨n', hn'⟩ := runFrom_iff.mpr ⟨w', hw', ht'⟩
  refine ⟨n, n', (t.trace, t.cells), by rw [performs, hn]; rfl, ?_⟩
  rw [performs, hargs, hn', map_some, heq]

/-- The results of an operation can be replaced by values that are what it computes. -/
theorem SsaForm.sameEffects_redirect (hf : f.SsaForm) {c j : Nat} {p : PlainOp}
    {σ : Value → Value} (h : f.Redirects c j p σ)
    (hsame : ∀ pre e post inputs cells t, f.Walk 0 (pre ++ (c, e) :: post) →
      execInstrs I effects (f.codeTo pre c j) (initialState (f.argsOf 0) inputs cells) = some t →
        Renamed σ (p.step I effects t) t) : f.SameEffects I (f.redirect c j σ) := by
  refine hf.acyclic.sameEffects ?_ fun w hw => ⟨_, walk_rename hw, fun inputs cells => ?_⟩
  · rw [FuncOp.redirect, argsOf_rename, argsOf_eraseOp]
  · exact outcome_redirect hf h (fun pre e post t => hsame pre e post inputs cells t) hw

/-- A cast can be replaced by a value that it computes. -/
theorem SsaForm.sameEffects_cast (hf : f.SsaForm) {c j : Nat} {p : PlainOp} {v r u : Value}
    {ty : Ty} (h : f.Redirects c j p (replaceValue [r] [u])) (hcast : p.IsCast v r ty)
    (hcomputes : f.Computes I c j p u) :
    f.SameEffects I (f.redirect c j (replaceValue [r] [u])) :=
  hf.sameEffects_redirect h fun pre e post inputs cells _ hw ht =>
    renamed_cast hcast (hcomputes _ ⟨pre, e, post, inputs, cells, hw, ht⟩)

end Effects

/-- The rewrites of the pass. -/
inductive Rewrite
  | lift (b i : Nat)
  | eliminate (b i c j : Nat)
  | dedup (b i c j : Nat)
  | uncast (c j : Nat)
  | constant (b i c j : Nat)
  | cast (f' : FuncOp) (c j : Nat)
  | fold (f' : FuncOp)

def Rewrite.IsLift (r : Rewrite) : Prop := ∃ b i, r = .lift b i

section Rewriting

variable (I : Interp Val)

/-- A rewrite of a function. The folding of blocks and the other patterns of MLIR itself are
taken to be correct, those of the dialect are not. -/
inductive Rewrites (f : FuncOp) : Rewrite → FuncOp → Prop
  | lift {b i o a} (hb : f.predecessors b ≠ []) (ho : (f.opsOf b)[i]? = some o)
      (ha : f.opAction b o = some a) :
      Rewrites f (.lift b i) (f.moveOp b i (f.lifted a o.inner))
  | eliminate {b i c j o p} (h : f.Eliminates b i c j o p) :
      Rewrites f (.eliminate b i c j) (f.redirect c j (p.replaces o))
  /-- `GloablImportDedupPattern` goes through the blocks in their order. -/
  | dedup {b i c j o p name} (hfirst : b < c ∨ b = c ∧ i < j)
      (ho : (f.opsOf b)[i]? = some (.plain o)) (hp : (f.opsOf c)[j]? = some (.plain p))
      (hname : o.kind = .globalImport name) (hsame : p.SameAs o) :
      Rewrites f (.dedup b i c j) (f.redirect c j (p.replaces o))
  /-- `BitCastOp::fold` and `BitCastTypeInfer`, which also changes the type of an input of
  any type. -/
  | uncast {c j p v r ty} (hp : (f.opsOf c)[j]? = some (.plain p)) (hcast : p.IsCast v r ty)
      (hty : ty = .any ∨ f.typeOf v = some ty ∨ f.typeOf v = some .any) :
      Rewrites f (.uncast c j) (f.redirect c j (replaceValue [r] [v]))
  /-- `BitCastOp::fold` of a constant, once the constant that it gives is there. -/
  | constant {b i c j o p q v r u width} (ho : (f.opsOf b)[i]? = some (.plain o))
      (hp : (f.opsOf c)[j]? = some (.plain p)) (hcast : p.IsCast v r (.int width))
      (hq : f.definingOp v = some (.plain q)) (hfrom : ∃ value, q.kind = .constant value)
      (hto : ∃ value, o.kind = .constant value) (hres : o.results = [(u, .int width)])
      (hdom : f.Dominates b i c j) :
      Rewrites f (.constant b i c j) (f.redirect c j (replaceValue [r] [u]))
  /-- `updateValue` makes a cast; without it the function is as before. -/
  | cast {f' c j p v r width} (hssa : f'.SsaForm) (hp : (f'.opsOf c)[j]? = some (.plain p))
      (hcast : p.IsCast v r (.int width)) (hwidth : f.typeOf v ≠ some (.int width))
      (hbefore : f'.redirect c j (replaceValue [r] [v]) = f) : Rewrites f (.cast f' c j) f'
  | fold {f'} (hssa : f'.SsaForm) (hsame : f.SameEffects I f') : Rewrites f (.fold f') f'

/-- A run of the pass. -/
inductive Run : FuncOp → List Rewrite → FuncOp → Prop
  | nil {f} : Run f [] f
  | cons {f g h r rs} (hstep : f.Rewrites I r g) (hrest : Run g rs h) : Run f (r :: rs) h

/-- A lifted operation passes none that it conflicts with. An eliminated operation creates
no object, and between it and the one it is replaced by, nothing writes what they read. The
first import dominates the others. A cast that is made or erased computes the value that
is used without it. -/
def Safe (f : FuncOp) : Rewrite → Prop
  | .lift b i => ∀ o p, (f.opsOf b)[i]? = some o → f.Passes b i p →
      o.inner.kind.conflicts effects p.inner.kind = false
  | .eliminate b i c j => ∀ o, (f.opsOf b)[i]? = some o →
      (∀ ty, o.inner.kind = .init ty → ty.isObject = false) ∧
      ∀ q, f.Between b i c j q → ∀ cell, o.inner.kind.reads = some cell →
        q.inner.kind.writes ≠ some cell
  | .dedup b i c j => f.Dominates b i c j
  | .uncast c j => ∀ p, (f.opsOf c)[j]? = some (.plain p) →
      ∀ v ∈ p.operands, f.Computes I c j p v
  | .constant b i c j => ∀ o p, (f.opsOf b)[i]? = some (.plain o) →
      (f.opsOf c)[j]? = some (.plain p) → ∀ u ∈ o.results.map Prod.fst, f.Computes I c j p u
  | .cast f' c j => ∀ p, (f'.opsOf c)[j]? = some (.plain p) →
      ∀ v ∈ p.operands, f.Computes I c j p v
  | .fold _ => True

/-- A run of safe rewrites. -/
inductive SafeRun : FuncOp → List Rewrite → FuncOp → Prop
  | nil {f} : SafeRun f [] f
  | cons {f g h r rs} (hsafe : f.Safe I r) (hstep : f.Rewrites I r g) (hrest : SafeRun g rs h) :
      SafeRun f (r :: rs) h

end Rewriting

variable {I : Interp Val} {f g : FuncOp} {r : Rewrite} {rs : List Rewrite}

/-- The constant that a cast becomes is available where the cast is. -/
theorem redirects_constant {b i c j : Nat} {o p : PlainOp} {v r u : Value} {ty ty' : Ty}
    (ho : (f.opsOf b)[i]? = some (.plain o)) (hp : (f.opsOf c)[j]? = some (.plain p))
    (hcast : p.IsCast v r ty) (hres : o.results = [(u, ty')]) (hdom : f.Dominates b i c j) :
    f.Redirects c j p (replaceValue [r] [u]) :=
  redirects_cast hp hcast fun _ _ _ hw => available_of_dominates ho hdom hw (by simp [hres])

/-- One safe rewrite. -/
theorem Rewrites.sameEffects (h : f.Rewrites I r g) (hf : f.SsaForm) (hsafe : f.Safe I r) :
    g.SsaForm ∧ f.SameEffects I g := by
  cases h with
  | @lift b i o a hb ho ha =>
    refine ⟨hf.moveOp (hf.ne_zero hb) ho ha, hf.acyclic.sameEffects (argsOf_moveOp 0)
      fun w hw => ⟨w, walk_moveOp hw, fun inputs cells => ?_⟩⟩
    exact outcome_moveOp hf (hf.ne_zero hb) ho ha (fun p => hsafe o p ho) hw _
  | @eliminate b i c j o p h =>
    exact ⟨hf.redirect h.redirects, hf.sameEffects_redirect h.redirects
      fun _ _ _ _ _ _ hw ht => h.renamed hf (hsafe _ h.first).2 hw ht⟩
  | @dedup b i c j o p name _ ho hp hname hsame =>
    have h : f.Eliminates b i c j o p := ⟨ho, hp, hsame, hsafe⟩
    have hreads : ∀ cell, o.kind.reads ≠ some cell := by simp [hname, OpKind.reads]
    exact ⟨hf.redirect h.redirects, hf.sameEffects_redirect h.redirects
      fun _ _ _ _ _ _ hw ht => h.renamed hf (fun _ _ cell hc => absurd hc (hreads cell)) hw ht⟩
  | @uncast c j p v r ty hp hcast =>
    have h := redirects_input hp hcast hf
    exact ⟨hf.redirect h, hf.sameEffects_cast h hcast (hsafe p hp v (by simp [hcast.operands]))⟩
  | @constant b i c j o p q v r u width ho hp hcast _ _ _ hres hdom =>
    have h := redirects_constant ho hp hcast hres hdom
    exact ⟨hf.redirect h, hf.sameEffects_cast h hcast (hsafe o p ho hp u (by simp [hres]))⟩
  | @cast g c j p v r width hssa hp hcast _ hbefore =>
    have h := redirects_input hp hcast hssa
    have hcomputes : g.Computes I c j p v := fun s hs =>
      hsafe p hp v (by simp [hcast.operands]) s (hbefore ▸ hssa.reached_redirect h hs)
    exact ⟨hssa, (hbefore ▸ hssa.sameEffects_cast h hcast hcomputes).symm⟩
  | fold hssa hsame => exact ⟨hssa, hsame⟩

section Pattern

variable {b i : Nat} {o : Operation} {a : OpAction}

theorem predecessors_eq_of_terms (b : Nat) :
    f.predecessors b = (f.blocks.map Block.term).zipIdx.flatMap fun p =>
      p.1.successors.filterMap fun d => if d = b then some p.2 else none := by
  rw [predecessors, zipIdx_map, flatMap_map]
  rfl

@[simp] theorem predecessors_moveOp (c : Nat) :
    (f.moveOp b i o).predecessors c = f.predecessors c := by
  have hterms : (f.moveOp b i o).blocks.map Block.term = f.blocks.map Block.term := by
    refine ext_getElem? fun k => ?_
    rw [getElem?_map, getElem?_map, getElem?_moveOp, Option.map_map]
    rfl
  rw [predecessors_eq_of_terms, predecessors_eq_of_terms, hterms]

@[simp] theorem length_moveOp : (f.moveOp b i o).blocks.length = f.blocks.length := by
  simp [moveOp]

section

variable (hb : b ≠ 0) (hblocks : f.blocks ≠ [])
include hb hblocks

/-- The entry block only grows. -/
theorem definedInEntry_moveOp {v : Value}
    (h : f.definedInEntry v = true) : (f.moveOp b i o).definedInEntry v = true := by
  simp only [definedInEntry, argsOf_moveOp, opsOf_moveOp_zero hb hblocks, Bool.or_eq_true,
    any_append] at h ⊢
  exact h.imp_right Or.inl

theorem foldPredicates_moveOp {n cur : Nat}
    {ps : List (Value × Bool)} (h : f.foldPredicates n cur = some ps) :
    (f.moveOp b i o).foldPredicates n cur = some ps := by
  induction n, cur, ps, h using foldPredicates_induction with
  | entry n h => cases n <;> rfl
  | step n cur pred ps rest _ _ hcur hpred ih hps =>
    rw [foldPredicates, if_neg hcur, predecessors_moveOp, hpred]
    rcases hps with ⟨_, _, hterm, rfl⟩ | ⟨cond, _, _, _, _, hterm, hcond, rfl⟩
    · simp only [termOf_moveOp, hterm, ih]
    · simp only [termOf_moveOp, hterm, definedInEntry_moveOp hb hblocks hcond, ih, if_true,
        map_some]

/-- What could be lifted before another operation was can be lifted after it. -/
theorem opAction_moveOp {c : Nat} {q : Operation}
    (h : f.opAction c q = some a) : (f.moveOp b i o).opAction c q = some a := by
  cases q with
  | guard => cases h
  | plain op =>
    simp only [opAction] at h ⊢
    split_ifs at h with hent hpure heff
    · rw [if_pos, if_pos hpure, h]
      exact all_eq_true.mpr fun v hv =>
        definedInEntry_moveOp hb hblocks (all_eq_true.mp hent v hv)
    · obtain ⟨ps, hps, rfl⟩ := map_eq_some_iff.mp h
      rw [if_pos, if_neg hpure, if_pos heff, length_moveOp,
        foldPredicates_moveOp hb hblocks hps, map_some]
      exact all_eq_true.mpr fun v hv =>
        definedInEntry_moveOp hb hblocks (all_eq_true.mp hent v hv)

end

theorem Run.append {f g h : FuncOp} {rs rs' : List Rewrite} (hfg : f.Run I rs g)
    (hgh : g.Run I rs' h) : f.Run I (rs ++ rs') h := by
  induction hfg with
  | nil => exact hgh
  | cons hstep _ ih => exact .cons hstep (ih hgh)

theorem Run.ssaForm (h : f.Run I rs g) (hlifts : ∀ r ∈ rs, r.IsLift) (hf : f.SsaForm) :
    g.SsaForm := by
  induction h with
  | nil => exact hf
  | cons hstep _ ih =>
    refine ih (fun r hr => hlifts r (mem_cons_of_mem _ hr)) ?_
    cases hstep with
    | lift hb ho ha => exact hf.moveOp (hf.ne_zero hb) ho ha
    | _ => obtain ⟨_, _, heq⟩ := hlifts _ mem_cons_self; cases heq

/-- The number of operations outside of the entry block. -/
def outside (f : FuncOp) : Nat := ∑ c ∈ (Finset.range f.blocks.length).erase 0, (f.opsOf c).length

theorem outside_moveOp_lt (hb : b ≠ 0) (ho : (f.opsOf b)[i]? = some o) (p : Operation) :
    (f.moveOp b i p).outside < f.outside := by
  have hi := (List.getElem?_eq_some_iff.mp ho).1
  have hblk : b < f.blocks.length := by
    by_contra hge
    simp [opsOf, getElem?_eq_none (Nat.le_of_not_lt hge)] at hi
  have hself : ((f.moveOp b i p).opsOf b).length < (f.opsOf b).length := by
    rw [opsOf_moveOp_self hb, length_eraseIdx, if_pos hi]
    omega
  rw [outside, outside, length_moveOp]
  refine Finset.sum_lt_sum (fun c hc => ?_) ⟨b, by simp [hb, hblk], hself⟩
  rcases eq_or_ne c b with rfl | hne
  · exact Nat.le_of_lt hself
  · rw [opsOf_moveOp_of_ne hne (Finset.mem_erase.mp hc).1]

/-- A run of lifts, with at least one if it sets the flag. -/
structure Lifts (I : Interp Val) (f : FuncOp) (changed : Bool) (r : FuncOp × Bool) : Prop where
  run : ∃ rs, (∀ r ∈ rs, r.IsLift) ∧ f.Run I rs r.1
  outside_le : r.1.outside ≤ f.outside
  outside_lt : r.2 → changed ∨ r.1.outside < f.outside

/-- The loop over the operations of a block lifts one after another. The actions
are those for `f`; `g` is the function now, in whose block the operations `kept`
come before those that are left. -/
theorem run_liftOps (hb : b ≠ 0) (ops kept : List Operation) (changed : Bool)
    (hpred : g.predecessors b ≠ []) (hops : g.opsOf b = kept ++ ops)
    (hact : ∀ q ∈ ops, ∀ a, f.opAction b q = some a → g.opAction b q = some a) :
    Lifts I g changed (f.liftOps b ops kept.length (g, changed)) := by
  induction ops generalizing g kept changed with
  | nil => exact ⟨⟨[], nofun, .nil⟩, Nat.le_refl _, Or.inl⟩
  | cons q ops ih =>
    have hq : (g.opsOf b)[kept.length]? = some q := by simp [hops]
    rw [liftOps]
    cases haction : f.opAction b q with
    | none =>
      have hnext := ih (kept ++ [q]) changed hpred (by simp [hops])
        fun p hp => hact p (by simp [hp])
      simpa using hnext
    | some a =>
      have hmoved : (g.moveOp b kept.length (g.lifted a q.inner)).opsOf b = kept ++ ops := by
        rw [opsOf_moveOp_self hb, hops, eraseIdx_append_of_length_le (Nat.le_refl _)]
        simp
      obtain ⟨⟨rs, hlifts, hrest⟩, hle, -⟩ := ih kept true (by rwa [predecessors_moveOp]) hmoved
        fun p hp a' ha' => opAction_moveOp hb (blocks_ne_nil hq) (hact p (by simp [hp]) a' ha')
      have hlt := Nat.lt_of_le_of_lt hle (outside_moveOp_lt hb hq _)
      exact ⟨⟨_, forall_mem_cons.mpr ⟨⟨_, _, rfl⟩, hlifts⟩,
        .cons (.lift hpred hq (hact q (by simp) a haction)) hrest⟩, Nat.le_of_lt hlt,
        fun _ => Or.inr hlt⟩

/-- An application of the pattern is a run of lifts. -/
theorem run_matchAndRewrite (hf : f.SsaForm) : Lifts I f false f.matchAndRewrite := by
  suffices hfold : ∀ (bs : List Nat) (r : FuncOp × Bool), Lifts I f false r →
      Lifts I f false (bs.foldl
        (fun r b => ((r.1.liftBlock b).1, r.2 || (r.1.liftBlock b).2)) r) from
    hfold _ _ ⟨⟨[], nofun, .nil⟩, Nat.le_refl _, nofun⟩
  intro bs
  induction bs with
  | nil => exact fun r hr => hr
  | cons b bs ih =>
    intro r hr
    refine ih _ ?_
    obtain ⟨⟨rs, hlifts, hrun⟩, hle, hlt⟩ := hr
    by_cases hpred : r.1.predecessors b = []
    · simpa [liftBlock, hpred] using ⟨⟨rs, hlifts, hrun⟩, hle, hlt⟩
    · simp only [liftBlock, if_neg hpred]
      have hb := (hrun.ssaForm hlifts hf).ne_zero hpred
      obtain ⟨⟨rs', hlifts', hrest⟩, hle', hlt'⟩ := run_liftOps (I := I) (f := r.1) hb
        (r.1.opsOf b) [] false hpred rfl fun _ _ _ h => h
      refine ⟨⟨rs ++ rs', forall_mem_append.mpr ⟨hlifts, hlifts'⟩, hrun.append hrest⟩,
        Nat.le_trans hle' hle, fun h => ?_⟩
      rcases Bool.or_eq_true_iff.mp h with h | h
      · exact (hlt h).imp_right (Nat.lt_of_le_of_lt hle')
      · exact Or.inr (Nat.lt_of_lt_of_le ((hlt' h).resolve_left nofun) hle)

/-- After as many rounds as there are operations outside of the entry block, which
are a run of lifts, the pattern changes nothing. -/
theorem liftAll_stable (I : Interp Val) (hf : f.SsaForm) :
    ∃ rs, (∀ r ∈ rs, r.IsLift) ∧ f.Run I rs (liftAll f.outside f) ∧
      (liftAll f.outside f).SsaForm ∧ (liftAll f.outside f).matchAndRewrite.2 = false := by
  suffices hrounds : ∀ n, f.outside ≤ n → ∃ rs, (∀ r ∈ rs, r.IsLift) ∧
      f.Run I rs (liftAll n f) ∧ (liftAll n f).SsaForm ∧
      (liftAll n f).matchAndRewrite.2 = false from hrounds _ (Nat.le_refl _)
  intro n
  induction n generalizing f with
  | zero =>
    intro hn
    refine ⟨[], nofun, .nil, hf, Bool.eq_false_iff.mpr fun hchanged => ?_⟩
    have hlt := ((run_matchAndRewrite (I := I) hf).outside_lt hchanged).resolve_left nofun
    omega
  | succ n ih =>
    intro hn
    rw [liftAll]
    split
    · next hchanged =>
        obtain ⟨⟨rs, hlifts, hrun⟩, -, hlt⟩ := run_matchAndRewrite (I := I) hf
        have hlt := (hlt hchanged).resolve_left nofun
        obtain ⟨rs', hlifts', hrest, hdone⟩ := ih (hrun.ssaForm hlifts hf) (by omega)
        exact ⟨rs ++ rs', forall_mem_append.mpr ⟨hlifts, hlifts'⟩, hrun.append hrest, hdone⟩
    · next hchanged => exact ⟨[], nofun, .nil, hf, Bool.eq_false_iff.mpr hchanged⟩

end Pattern

/-- Through a run of safe rewrites the handler keeps its effects. -/
theorem linearize_sameEffects (I : Interp Val) (hf : f.SsaForm) (h : f.SafeRun I rs g) :
    f.SameEffects I g := by
  induction h with
  | nil =>
    intro inputs cells
    obtain ⟨n, t, hn⟩ := hf.acyclic.exists_run I effects 0 (initialState _ inputs cells)
    exact ⟨n, n, _, map_eq_some_iff.mpr ⟨t, hn, rfl⟩, map_eq_some_iff.mpr ⟨t, hn, rfl⟩⟩
  | cons hsafe hstep _ ih =>
    obtain ⟨hssa, hsame⟩ := hstep.sameEffects hf hsafe
    exact hsame.trans (ih hssa)

section Conditional

/-- A handler that executes operations under a condition. -/
def conditional (ops : List Operation) : FuncOp where
  name := "__handler_NET_RECV"
  blocks := [
    ⟨[(0, .int 1), (1, .int 64), (2, .int 64)],
      [.plain ⟨10, .globalImport "flows", [], [(3, .table (.int 64) (.int 64) 16)]⟩],
      11, .condBr 0 1 [] 2 []⟩,
    ⟨[], ops, 12, .br 2 []⟩,
    ⟨[], [], 13, .terminate⟩]

/-- Store the double of a value. -/
def storeDouble : List Operation :=
  [.plain ⟨20, .compute "add", [2, 2], [(4, .int 64)]⟩, .plain ⟨21, .update "flows", [3, 1, 4], []⟩]

/-- Store the double of a value, then the value. -/
def storeTwice : List Operation := storeDouble ++ [.plain ⟨22, .update "flows", [3, 1, 2], []⟩]

variable {ops : List Operation}

theorem conditional_walk {w : List Leg} (h : (conditional ops).Walk 0 w) :
    w = [(0, [.test 0 true, .bind [] []]), (1, [.bind [] []]), (2, [])] ∨
      w = [(0, [.test 0 false, .bind [] []]), (2, [])] := by
  have hlast : ∀ {w}, (conditional ops).Walk 2 w → w = [(2, [])] := by
    intro w h
    cases h with
    | stop => rfl
    | go hedge => cases hedge
  cases h with
  | stop hterm => cases hterm
  | go hedge hrest =>
    rcases mem_cons.mp hedge with heq | hedge
    · cases heq
      cases hrest with
      | stop hterm => cases hterm
      | go hedge hrest =>
        cases mem_singleton.mp hedge
        exact Or.inl (by rw [hlast hrest]; rfl)
    · cases mem_singleton.mp hedge
      exact Or.inr (by rw [hlast hrest]; rfl)

theorem conditional_edge {b c : Nat} (h : (conditional ops).Edge b c) :
    b = 0 ∧ c = 1 ∨ b ≤ 1 ∧ c = 2 := by
  obtain ⟨instrs, hedge⟩ := h
  match b with
  | 0 =>
    rcases mem_cons.mp hedge with heq | hedge
    · cases heq
      exact Or.inl ⟨rfl, rfl⟩
    · cases mem_singleton.mp hedge
      exact Or.inr ⟨by omega, rfl⟩
  | 1 =>
    cases mem_singleton.mp hedge
    exact Or.inr ⟨Nat.le_refl 1, rfl⟩
  | 2 => cases hedge
  | n + 3 => cases hedge

theorem conditional_acyclic (ops : List Operation) : (conditional ops).Acyclic := by
  refine ⟨fun b => 2 - b, fun b instrs d hedge => ?_⟩
  have := conditional_edge ⟨instrs, hedge⟩
  show 2 - d < 2 - b
  omega

theorem conditional_ssaForm (hbinds : ops.flatMap Operation.binds = [4])
    (huses : InstrsFrom [0, 1, 2, 3] (ops.map .op))
    (hres : ∀ o ∈ ops, effects o.inner.kind → o.inner.results = []) :
    (conditional ops).SsaForm := by
  have hbindings : (conditional ops).bindingsOf 1 = [4] := hbinds
  refine ⟨rfl, conditional_acyclic ops, ?_, ?_, ?_, ?_⟩
  · rintro (_ | _ | _ | n)
    · exact (by decide : ([0, 1, 2, 3] : List Value).Nodup)
    · simp [hbindings]
    · exact nodup_nil
    · exact nodup_nil
  · intro b c hbc v hb hc
    have hblock : ∀ d, v ∈ (conditional ops).bindingsOf d → d = if v < 4 then 0 else 1 := by
      rintro (_ | _ | _ | n) hv
      · have hv : v ∈ [0, 1, 2, 3] := hv
        simp only [mem_cons, not_mem_nil, or_false] at hv
        rcases hv with rfl | rfl | rfl | rfl <;> rfl
      · rw [hbindings, mem_singleton] at hv
        rw [hv]
        rfl
      · cases hv
      · cases hv
    exact hbc ((hblock b hb).trans (hblock c hc).symm)
  · intro w hw
    rcases conditional_walk hw with rfl | rfl
    · have hcode : (conditional ops).code
          [(0, [.test 0 true, .bind [] []]), (1, [.bind [] []]), (2, [])] =
          [.op (.plain ⟨10, .globalImport "flows", [], [(3, .table (.int 64) (.int 64) 16)]⟩),
            .test 0 true, .bind [] []] ++ (ops.map .op ++ [.bind [] []]) := by
        simp [code, opsOf, conditional]
      rw [hcode, instrsFrom_append, instrsFrom_append]
      exact ⟨(by decide : InstrsFrom [0, 1, 2] _), huses, by simp [Instr.uses], trivial⟩
    · exact (by decide : InstrsFrom [0, 1, 2]
        [.op (.plain ⟨10, .globalImport "flows", [], [(3, .table (.int 64) (.int 64) 16)]⟩),
          .test 0 false, .bind [] []])
  · rintro (_ | _ | _ | n) o ho heff
    · cases mem_singleton.mp ho
      cases heff
    · exact hres o ho heff
    · cases ho
    · cases ho

theorem conditional_not_reaches {b : Nat} (hb : b ≠ 0) :
    ¬ Relation.TransGen (conditional ops).Edge b 1 := by
  have hlast : ∀ {c}, (conditional ops).Edge c 1 → c = 0 := fun h => by
    have := conditional_edge h
    omega
  intro h
  cases h with
  | single hedge => exact hb (hlast hedge)
  | tail hpath hedge =>
    obtain rfl := hlast hedge
    have hent : ∀ {c}, ¬ (conditional ops).Edge c 0 := fun h => by
      have := conditional_edge h
      omega
    cases hpath with
    | single hedge => exact hent hedge
    | tail _ hedge => exact hent hedge

/-- Numbers as values: operations add up their operands. -/
def sumInterp : Interp Nat where
  eval _ args := [args.sum]
  truth n := n != 0
  atomic _ old new := old + new

/-- A lift of the first operation of the conditional block is safe. -/
theorem conditional_safe {f : FuncOp} (h : ∀ c, f.edges c = (conditional ops).edges c) :
    f.Safe sumInterp (.lift 1 0) := by
  intro o p _ hpasses
  rcases hpasses with hp | ⟨c, hc, hreach, _⟩
  · cases hp
  · have hedge : f.Edge = (conditional ops).Edge := by
      funext b c
      simp only [Edge, h]
    exact absurd (hedge ▸ hreach) (conditional_not_reaches hc)

/-- Both operations are lifted, the update into a guard. -/
theorem linearize_sameEffects_storeDouble :
    ∃ g, (conditional storeDouble).SafeRun sumInterp [.lift 1 0, .lift 1 0] g ∧
      g.opsOf 1 = [] ∧ (conditional storeDouble).SameEffects sumInterp g := by
  have hssa : (conditional storeDouble).SsaForm :=
    conditional_ssaForm (by decide) (by decide) (by decide)
  have hrun : ∃ g, (conditional storeDouble).SafeRun sumInterp [.lift 1 0, .lift 1 0] g ∧
      g.opsOf 1 = [] :=
    ⟨_, .cons (conditional_safe fun _ => rfl) (.lift (by decide) rfl rfl)
      (.cons (conditional_safe fun c => edges_moveOp c) (.lift (by decide) rfl rfl) .nil), rfl⟩
  obtain ⟨g, hrun, hops⟩ := hrun
  exact ⟨g, hrun, hops, linearize_sameEffects sumInterp hssa hrun⟩

theorem liftAll_stable_storeDouble :
    (liftAll 2 (conditional storeDouble)).matchAndRewrite.2 = false := by
  obtain ⟨_, _, _, _, hdone⟩ := liftAll_stable (f := conditional storeDouble) sumInterp
    (conditional_ssaForm (by decide) (by decide) (by decide))
  exact hdone

/-- The second update is lifted in the first round, and the first update only in
the second one, after it: the table ends up with the other value. -/
theorem liftAll_storeTwice : (conditional storeTwice).SsaForm ∧
      ((liftAll 3 (conditional storeTwice)).matchAndRewrite.2 = false) ∧
      ¬ (conditional storeTwice).SameEffects sumInterp (liftAll 3 (conditional storeTwice)) := by
  refine ⟨conditional_ssaForm (by decide) (by decide) (by decide), by decide +kernel, ?_⟩
  intro hsame
  obtain ⟨n, n', out, hn, hn'⟩ := hsame [1, 5, 7] fun _ _ => 0
  have hbefore : ((conditional storeTwice).performs sumInterp 3 [1, 5, 7] fun _ _ => 0).map
      Prod.fst = some [(.update "flows", [0, 5, 14]), (.update "flows", [0, 5, 7])] := by rfl
  have hafter : ((liftAll 3 (conditional storeTwice)).performs sumInterp 3 [1, 5, 7]
      fun _ _ => 0).map Prod.fst =
        some [(.update "flows", [0, 5, 7]), (.update "flows", [0, 5, 14])] := by rfl
  obtain ⟨out₁, h₁, htrace₁⟩ := map_eq_some_iff.mp hbefore
  obtain ⟨out₂, h₂, htrace₂⟩ := map_eq_some_iff.mp hafter
  rw [← performs_unique hn h₁] at htrace₁
  rw [← performs_unique hn' h₂, htrace₁] at htrace₂
  simp at htrace₂

end Conditional

end Alkali.FuncOp
