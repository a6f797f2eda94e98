import Alkali.Linearize.Move
import Alkali.Linearize.Rename

/-!
# Replaced operations in SSA code

In code in SSA form an operation without effects can be left out if values that are
available before it take the place of its results and are what it computes. So are the
results of an equal operation, if nothing between the two writes the cell that they read.
-/

namespace Alkali

open List Instr

/-- The two operations are equal for the elimination, which takes an operation
that the dialect declares pure to be determined by its operands. -/
structure PlainOp.SameAs (p o : PlainOp) : Prop where
  pure : o.kind.isPure
  kind : p.kind = o.kind
  operands : p.operands = o.operands
  types : p.results.map Prod.snd = o.results.map Prod.snd

variable {p o : PlainOp}

theorem PlainOp.SameAs.length (h : p.SameAs o) :
    (o.results.map Prod.fst).length = (p.results.map Prod.fst).length := by
  have := congrArg List.length h.types
  simp only [length_map] at this ⊢
  exact this.symm

/-- The results of `o` take the place of those of `p`. -/
def PlainOp.replaces (p o : PlainOp) : Value → Value :=
  replaceValue (p.results.map Prod.fst) (o.results.map Prod.fst)

variable {v : Value}

theorem PlainOp.replaces_of_not_mem (h : v ∉ p.results.map Prod.fst) :
    p.replaces o v = v := replaceValue_of_not_mem h

theorem PlainOp.SameAs.replaces_mem (h : p.SameAs o) (hv : v ∈ p.results.map Prod.fst) :
    p.replaces o v ∈ o.results.map Prod.fst :=
  replaceValue_mem h.length hv

section Frame

variable {Val : Type} [Inhabited Val] [DecidableEq Val] {I : Interp Val} {obs : OpKind → Bool}
variable {xs : List Instr}

theorem execInstrs_env_of_not_mem {s t : State Val} {v : Value}
    (h : execInstrs I obs xs s = some t) (hv : ∀ x ∈ xs, v ∉ x.binds) : t.env v = s.env v := by
  induction xs generalizing s with
  | nil =>
    cases h
    rfl
  | cons x xs ih =>
    obtain ⟨u, hu, hrest⟩ := Option.bind_eq_some_iff.mp h
    rw [ih hrest fun y hy => hv y (by simp [hy]), step_env_of_not_mem (hv x (by simp)) hu]

theorem execInstrs_cells_of_ne {s t : State Val} {c : Cell} (h : execInstrs I obs xs s = some t)
    (hc : ∀ q, .op q ∈ xs → q.inner.kind.writes ≠ some c) : t.cells c = s.cells c := by
  induction xs generalizing s with
  | nil =>
    cases h
    rfl
  | cons x xs ih =>
    obtain ⟨u, hu, hrest⟩ := Option.bind_eq_some_iff.mp h
    rw [ih hrest fun q hq => hc q (by simp [hq])]
    cases x with
    | op o =>
      cases hu
      exact Operation.step_cells_of_ne (hc o (by simp))
    | bind dests srcs =>
      cases hu
      rfl
    | test cond want =>
      simp only [step] at hu
      split at hu
      · cases hu
        rfl
      · cases hu

end Frame

section Elimination

variable {Val : Type} [Inhabited Val] [DecidableEq Val] {I : Interp Val}
  {A : List Value} {X M Y : List Instr} {o p : PlainOp}

/-- If the results of `o` are what `p` computes, `p` can be left out. -/
theorem renamed_step (hsame : p.SameAs o) (hnd : (o.results.map Prod.fst).Nodup) {t : State Val}
    (ht : ∀ v ∈ o.results.map Prod.fst, t.env v =
      (p.kind.outputs I (p.operands.map t.env) t.cells).getD
        ((o.results.map Prod.fst).idxOf v) default) :
    Renamed (p.replaces o) (p.step I effects t) t := by
  have hpure : p.kind.isPure := hsame.kind ▸ hsame.pure
  refine ⟨?_, ?_, ?_⟩
  · intro v
    rw [PlainOp.step_env]
    by_cases hv : v ∈ p.results.map Prod.fst
    · have hidx : (o.results.map Prod.fst).idxOf (p.replaces o v) =
          (p.results.map Prod.fst).idxOf v := idxOf_replaceValue hsame.length hnd hv
      rw [ht _ (hsame.replaces_mem hv), hidx, setResults, if_pos hv]
    · rw [PlainOp.replaces_of_not_mem hv, setResults_of_not_mem hv]
  · rw [PlainOp.step_cells, OpKind.write, OpKind.writes_of_isPure hpure]
  · rw [PlainOp.step_trace, PlainOp.recorded, OpKind.effects_of_isPure hpure]
    simp

/-- The results of an operation stay what an equal operation computes. -/
theorem results_of_same (hsame : p.SameAs o)
    (hops : ∀ v ∈ o.operands, ∀ x ∈ op (.plain o) :: M, v ∉ x.binds)
    (hres : ∀ v ∈ o.results.map Prod.fst, ∀ x ∈ M, v ∉ x.binds)
    (hM : ∀ q, .op q ∈ M → ∀ c, o.kind.reads = some c → q.inner.kind.writes ≠ some c)
    {s t : State Val} (h : execInstrs I effects (.op (.plain o) :: M) s = some t) :
    ∀ v ∈ o.results.map Prod.fst, t.env v = (p.kind.outputs I (p.operands.map t.env) t.cells).getD
        ((o.results.map Prod.fst).idxOf v) default := by
  have hargs : o.operands.map t.env = o.operands.map s.env :=
    map_congr_left fun v hv => execInstrs_env_of_not_mem h (hops v hv)
  have hcells : ∀ c, o.kind.reads = some c → t.cells c = s.cells c := by
    intro c hc
    refine execInstrs_cells_of_ne h fun q hq => ?_
    rcases mem_cons.mp hq with heq | hq
    · cases heq
      simp [OpKind.writes_of_isPure hsame.pure]
    · exact hM q hq c hc
  have hmid : execInstrs I effects M (o.step I effects s) = some t := h
  intro v hv
  rw [hsame.kind, hsame.operands, hargs, OpKind.outputs_congr hcells,
    execInstrs_env_of_not_mem hmid (hres v hv), PlainOp.step_env, setResults, if_pos hv]

end Elimination

/-- Code in SSA form with an operation whose results are replaced by values that are
available before it. -/
structure Redirect (A : List Value) (P : List Instr) (p : PlainOp) (Y : List Instr)
    (σ : Value → Value) : Prop where
  uses : InstrsFrom A (P ++ .op (.plain p) :: Y)
  nodup : (A ++ (P ++ .op (.plain p) :: Y).flatMap binds).Nodup
  fixed : ∀ v ∉ p.results.map Prod.fst, σ v = v
  available : ∀ v ∈ p.results.map Prod.fst, σ v ∈ A ++ P.flatMap defs

namespace Redirect

variable {A : List Value} {P Y : List Instr} {p : PlainOp} {σ : Value → Value} {v : Value}

section

variable (h : Redirect A P p Y σ)
include h

/-- The results are new. -/
theorem fresh (hv : v ∈ A ++ P.flatMap binds) : v ∉ p.results.map Prod.fst :=
  not_mem_binds_of_nodup h.nodup hv (.op (.plain p)) mem_cons_self

/-- Nothing before the operation uses its results. -/
theorem kept : P.map (rename σ) = P :=
  map_rename_eq_self fun _ hx _ hv =>
    h.fixed _ (h.fresh ((instrsFrom_append.mp h.uses).1.mem_binds hx hv))

theorem untouched {x : Instr} (hx : x ∈ Y) : Untouched σ x.binds := by
  have hp : ∀ v ∈ x.binds, v ∉ p.results.map Prod.fst := by
    intro v hv hres
    have hnd : (A ++ ((P ++ [op (.plain p)]) ++ Y).flatMap binds).Nodup := by simpa using h.nodup
    refine not_mem_binds_of_nodup hnd (mem_append_right _ ?_) x hx hv
    exact mem_flatMap.mpr ⟨.op (.plain p), by simp, hres⟩
  intro v hv u
  by_cases hu : u ∈ p.results.map Prod.fst
  · have hne : u ≠ v := by
      rintro rfl
      exact hp u hv hu
    have hne' : σ u ≠ v := by
      rintro rfl
      exact not_mem_binds_of_nodup h.nodup (append_defs_subset _ _ (h.available u hu)) x
        (mem_cons_of_mem _ hx) hv
    exact iff_of_false hne' hne
  · rw [h.fixed u hu]

/-- The uses of the results find the values that take their place. -/
theorem uses_replaced : InstrsFrom A ((P ++ Y).map (rename σ)) := by
  obtain ⟨hbefore, _, hafter⟩ := instrsFrom_append.mp h.uses
  rw [map_append, h.kept, instrsFrom_append]
  refine ⟨hbefore, hafter.rename (fun v hv => ?_) fun x hx v hv => ?_⟩
  · rcases mem_append.mp hv with hv | hv
    · rwa [h.fixed v (h.fresh (append_defs_subset _ _ hv))]
    · exact h.available v hv
  · exact (h.untouched hx v (x.defs_subset_binds hv) v).mpr rfl

/-- The operation can be left out if the values that take the place of its results are
what it computes. -/
theorem outcome_eq {Val : Type} [Inhabited Val] [DecidableEq Val] {I : Interp Val} {s : State Val}
    (hsame : ∀ t, execInstrs I effects P s = some t → Renamed σ (p.step I effects t) t) :
    outcome (execInstrs I effects ((P ++ Y).map (rename σ)) s) =
      outcome (execInstrs I effects (P ++ .op (.plain p) :: Y) s) := by
  rw [map_append, h.kept, execInstrs_append, execInstrs_append]
  cases ht : execInstrs I effects P s with
  | none => rfl
  | some t => exact outcome_rename (hsame t ht) fun x hx => h.untouched hx

end

section Equal

variable {X M : List Instr} {o : PlainOp} (h : Redirect A (X ++ .op (.plain o) :: M) p Y σ)
include h

theorem operands_kept (hv : v ∈ o.operands) : ∀ x ∈ op (.plain o) :: M, v ∉ x.binds := by
  intro x hx
  have huses := (instrsFrom_append.mp (instrsFrom_append.mp h.uses).1).2
  have hnd : (A ++ (X ++ (op (.plain o) :: M ++ op (.plain p) :: Y)).flatMap binds).Nodup := by
    simpa using h.nodup
  exact not_mem_binds_of_nodup hnd
    (append_defs_subset _ _ (huses.1 v (by simpa [Instr.uses, Operation.mem_uses]))) x
    (mem_append_left _ hx)

theorem results_kept (hv : v ∈ o.results.map Prod.fst) : ∀ x ∈ M, v ∉ x.binds := by
  intro x hx
  have hnd : (A ++ ((X ++ [op (.plain o)]) ++
      (M ++ op (.plain p) :: Y)).flatMap binds).Nodup := by simpa using h.nodup
  refine not_mem_binds_of_nodup hnd (mem_append_right _ ?_) x (mem_append_left _ hx)
  exact mem_flatMap.mpr ⟨.op (.plain o), by simp, hv⟩

theorem nodup_results : (o.results.map Prod.fst).Nodup := by
  have hnd := h.nodup
  rw [append_assoc, flatMap_append, cons_append, flatMap_cons] at hnd
  exact (hnd.of_append_right.of_append_right).of_append_left

/-- The results of an equal operation are what the operation computes. -/
theorem renamed_of_same {Val : Type} [Inhabited Val] [DecidableEq Val] {I : Interp Val}
    (hsame : p.SameAs o)
    (hM : ∀ q, .op q ∈ M → ∀ c, o.kind.reads = some c → q.inner.kind.writes ≠ some c)
    {s t : State Val} (ht : execInstrs I effects (X ++ .op (.plain o) :: M) s = some t) :
    Renamed (p.replaces o) (p.step I effects t) t := by
  rw [execInstrs_append] at ht
  obtain ⟨u, -, ht⟩ := Option.bind_eq_some_iff.mp ht
  exact renamed_step hsame h.nodup_results (results_of_same hsame
    (fun v hv => h.operands_kept hv) (fun v hv => h.results_kept hv) hM ht)

end Equal

end Redirect

end Alkali
