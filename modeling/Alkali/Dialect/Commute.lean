import Alkali.Dialect.Semantics

/-!
# Footprints and commuting operations

An operation reads the values it uses and at most one cell, binds its results
and writes at most one cell. Operations whose footprints do not meet commute;
what remains of their order is the order of the recorded effects.
-/

namespace Alkali

variable {Val : Type} [Inhabited Val]

section Results

@[simp] theorem setResults_nil (outs : List Val) (env : Value → Val) :
    setResults [] outs env = env := by
  funext v
  simp [setResults]

variable {rs : List Value} {outs : List Val} {env : Value → Val}
variable {v : Value}

theorem setResults_of_mem {env' : Value → Val} (h : v ∈ rs) :
    setResults rs outs env v = setResults rs outs env' v := by
  simp [setResults, h]

theorem setResults_of_not_mem (h : v ∉ rs) : setResults rs outs env v = env v := by
  simp [setResults, h]

theorem setResults_comm {rs' : List Value} {outs' : List Val} (h : ∀ v ∈ rs, v ∉ rs') :
    setResults rs outs (setResults rs' outs' env) =
      setResults rs' outs' (setResults rs outs env) := by
  funext v
  by_cases hv : v ∈ rs
  · rw [setResults_of_not_mem (h v hv)]
    exact setResults_of_mem hv
  · rw [setResults_of_not_mem hv]
    by_cases hv' : v ∈ rs'
    · exact setResults_of_mem hv'
    · rw [setResults_of_not_mem hv', setResults_of_not_mem hv', setResults_of_not_mem hv]

end Results

variable [DecidableEq Val] {I : Interp Val} {obs : OpKind → Bool}

namespace OpKind

variable {k : OpKind} {args : List Val} {cells : Cell → Val → Val}
variable {cells' : Cell → Val → Val} {c : Cell}

omit [DecidableEq Val] in
theorem outputs_congr (h : ∀ c, k.reads = some c → cells c = cells' c) :
    k.outputs I args cells = k.outputs I args cells' := by
  rw [outputs, outputs]
  cases hk : k.reads with
  | none => rfl
  | some c => simp only [h c hk]

theorem write_of_ne (h : k.writes ≠ some c) : k.write I args cells c = cells c := by
  rw [write]
  cases hk : k.writes with
  | none => rfl
  | some c' =>
    refine Function.update_of_ne ?_ _ _
    rintro rfl
    exact h hk

/-- What an operation writes depends on the cell it writes only. -/
theorem write_congr (h : cells c = cells' c) :
    k.write I args cells c = k.write I args cells' c := by
  rw [write, write]
  cases hk : k.writes with
  | none => exact h
  | some c' =>
    by_cases hc : c = c'
    · subst hc
      simp only [Function.update_self, h]
    · simp only [Function.update_of_ne hc, h]

theorem write_comm {k' : OpKind} {args' : List Val}
    (h : ∀ c, k.writes = some c → k'.writes ≠ some c) :
    k.write I args (k'.write I args' cells) = k'.write I args' (k.write I args cells) := by
  funext c
  by_cases hc : k.writes = some c
  · rw [write_of_ne (h c hc)]
    exact write_congr (write_of_ne (h c hc))
  · rw [write_of_ne hc]
    exact write_congr (write_of_ne hc).symm

end OpKind

namespace Operation

theorem inner_operands_subset (o : Operation) : o.inner.operands ⊆ o.uses := by
  intro v hv
  cases o with
  | plain op => exact mem_uses.mpr (Or.inl hv)
  | guard i ps as body => exact mem_uses.mpr (Or.inr hv)

theorem operands_subset (o : Operation) : o.operands ⊆ o.uses :=
  fun _ hv => mem_uses.mpr (Or.inl hv)

/-- The footprints of two operations do not meet. -/
structure Independent (o p : Operation) : Prop where
  binds_uses : ∀ v ∈ o.binds, v ∉ p.uses
  uses_binds : ∀ v ∈ p.binds, v ∉ o.uses
  binds_binds : ∀ v ∈ o.binds, v ∉ p.binds
  reads_writes : ∀ c, o.inner.kind.reads = some c → p.inner.kind.writes ≠ some c
  writes_reads : ∀ c, p.inner.kind.reads = some c → o.inner.kind.writes ≠ some c
  writes_writes : ∀ c, o.inner.kind.writes = some c → p.inner.kind.writes ≠ some c

variable {o : Operation}

theorem Independent.symm {p : Operation} (h : o.Independent p) : p.Independent o where
  binds_uses := h.uses_binds
  uses_binds := h.binds_uses
  binds_binds v hv hv' := h.binds_binds v hv' hv
  reads_writes := h.writes_reads
  writes_reads := h.reads_writes
  writes_writes c hc hc' := h.writes_writes c hc' hc

/-- Whether the operation, or the body of a guard, is executed. -/
def enabled (I : Interp Val) (o : Operation) (env : Value → Val) : Bool :=
  match o with
  | plain _ => true
  | guard _ preds predAttrs _ => guardHolds I preds predAttrs env

variable {s : State Val}

theorem step_of_enabled (h : o.enabled I s.env = true) : o.step I obs s = o.inner.step I obs s := by
  cases o with
  | plain op => rfl
  | guard i ps as body => exact if_pos h

theorem step_of_not_enabled (h : o.enabled I s.env = false) : o.step I obs s = s := by
  cases o with
  | plain op => cases h
  | guard i ps as body => exact if_neg (by simpa [enabled] using h)

omit [Inhabited Val] [DecidableEq Val] in
theorem enabled_congr {env env' : Value → Val} (h : ∀ v ∈ o.operands, env v = env' v) :
    o.enabled I env = o.enabled I env' := by
  cases o with
  | plain op => rfl
  | guard i ps as body =>
    simp only [enabled, guardHolds]
    rw [Bool.eq_iff_iff, List.all_eq_true, List.all_eq_true]
    refine forall₂_congr fun q hq => ?_
    rw [h q.1 (List.of_mem_zip hq).1]

end Operation

namespace PlainOp

/-- The effect that the operation records. -/
def recorded (obs : OpKind → Bool) (o : PlainOp) (env : Value → Val) : List (Effect Val) :=
  if obs o.kind then [(o.kind, o.operands.map env)] else []

theorem step_env (o : PlainOp) (s : State Val) :
    (o.step I obs s).env = setResults (o.results.map Prod.fst)
      (o.kind.outputs I (o.operands.map s.env) s.cells) s.env := rfl

theorem step_cells (o : PlainOp) (s : State Val) :
    (o.step I obs s).cells = o.kind.write I (o.operands.map s.env) s.cells := rfl

theorem step_trace (o : PlainOp) (s : State Val) :
    (o.step I obs s).trace = s.trace ++ o.recorded obs s.env := rfl

end PlainOp

namespace Operation

variable {o : Operation} {s : State Val}

theorem step_env_of_not_mem {v : Value} (h : v ∉ o.binds) : (o.step I obs s).env v = s.env v := by
  cases he : o.enabled I s.env with
  | true =>
    rw [step_of_enabled he, PlainOp.step_env]
    exact setResults_of_not_mem h
  | false => rw [step_of_not_enabled he]

theorem step_cells_of_ne {c : Cell} (h : o.inner.kind.writes ≠ some c) :
    (o.step I obs s).cells c = s.cells c := by
  cases he : o.enabled I s.env with
  | true =>
    rw [step_of_enabled he, PlainOp.step_cells]
    exact OpKind.write_of_ne h
  | false => rw [step_of_not_enabled he]

end Operation

/-- The state after an executed operation, by the values of its operands and
what it produces. -/
def State.apply (I : Interp Val) (obs : OpKind → Bool) (o : PlainOp) (args outs : List Val)
    (s : State Val) : State Val where
  env := setResults (o.results.map Prod.fst) outs s.env
  cells := o.kind.write I args s.cells
  trace := s.trace ++ if obs o.kind then [(o.kind, args)] else []

variable {s t : State Val}

theorem PlainOp.step_eq_apply {o : PlainOp} (henv : ∀ v ∈ o.operands, t.env v = s.env v)
    (hcells : ∀ c, o.kind.reads = some c → t.cells c = s.cells c) :
    o.step I obs t = t.apply I obs o (o.operands.map s.env)
        (o.kind.outputs I (o.operands.map s.env) s.cells) := by
  have hargs : o.operands.map t.env = o.operands.map s.env := List.map_congr_left henv
  rw [PlainOp.step, hargs, OpKind.outputs_congr hcells]
  rfl

variable (I obs) in
/-- Two operations with the same effect do it from both states, or from none of them. -/
theorem Operation.steps_alike {o p : Operation} (hkind : p.inner.kind = o.inner.kind)
    (hres : p.inner.results = o.inner.results)
    (hen : p.enabled I t.env = o.enabled I s.env)
    (hargs : p.inner.operands.map t.env = o.inner.operands.map s.env)
    (hcells : ∀ c, o.inner.kind.reads = some c → t.cells c = s.cells c) :
    o.enabled I s.env = false ∧ o.step I obs s = s ∧ p.step I obs t = t ∨
      ∃ args outs, o.step I obs s = s.apply I obs o.inner args outs ∧
        p.step I obs t = t.apply I obs o.inner args outs := by
  cases he : o.enabled I s.env with
  | false =>
    exact Or.inl ⟨rfl, step_of_not_enabled he, step_of_not_enabled (hen.trans he)⟩
  | true =>
    refine Or.inr ⟨_, _, step_of_enabled he, ?_⟩
    rw [step_of_enabled (hen.trans he), PlainOp.step, hkind, hres, hargs,
      OpKind.outputs_congr hcells]
    rfl

variable (I obs) in
/-- An operation does the same from states in which what it uses is equal. -/
theorem Operation.step_alike {o : Operation} (henv : ∀ v ∈ o.uses, t.env v = s.env v)
    (hcells : ∀ c, o.inner.kind.reads = some c → t.cells c = s.cells c) :
    o.enabled I s.env = false ∧ o.step I obs s = s ∧ o.step I obs t = t ∨
      ∃ args outs, o.step I obs s = s.apply I obs o.inner args outs ∧
        o.step I obs t = t.apply I obs o.inner args outs :=
  steps_alike I obs rfl rfl (enabled_congr fun v hv => henv v (o.operands_subset hv))
    (List.map_congr_left fun v hv => henv v (o.inner_operands_subset hv)) hcells

/-- Two states that differ in the order of the recorded effects only. -/
structure State.Similar (s t : State Val) : Prop where
  env : s.env = t.env
  cells : s.cells = t.cells
  trace : s.trace.Perm t.trace

namespace Operation

variable {o p : Operation}

variable (h : o.Independent p)
include h

variable (I obs) in
theorem Independent.enabled_step (s : State Val) :
    o.enabled I (p.step I obs s).env = o.enabled I s.env :=
  enabled_congr fun v hv =>
    step_env_of_not_mem fun hb => h.uses_binds v hb (o.operands_subset hv)

/-- Executing `p` first does not change what `o` does. -/
theorem Independent.step_after (s : State Val) : o.inner.step I obs (p.step I obs s) =
      (p.step I obs s).apply I obs o.inner (o.inner.operands.map s.env)
        (o.inner.kind.outputs I (o.inner.operands.map s.env) s.cells) := by
  apply PlainOp.step_eq_apply
  · intro v hv
    exact step_env_of_not_mem fun hb => h.uses_binds v hb (o.inner_operands_subset hv)
  · intro c hc
    exact step_cells_of_ne (h.reads_writes c hc)

variable (I obs) in
/-- Both orders apply the same two operations, or one of them does nothing. -/
theorem Independent.step_step (s : State Val) :
    p.step I obs (o.step I obs s) = o.step I obs (p.step I obs s) ∨ ∃ ao oo ap op,
        p.step I obs (o.step I obs s) = (s.apply I obs o.inner ao oo).apply I obs p.inner ap op ∧
        o.step I obs (p.step I obs s) =
          (s.apply I obs p.inner ap op).apply I obs o.inner ao oo := by
  have hoe := h.enabled_step I obs s
  have hpe := h.symm.enabled_step I obs s
  cases ho : o.enabled I s.env with
  | false =>
    rw [ho] at hoe
    rw [step_of_not_enabled ho, step_of_not_enabled hoe]
    exact Or.inl rfl
  | true =>
    cases hp : p.enabled I s.env with
    | false =>
      rw [hp] at hpe
      rw [step_of_not_enabled hp, step_of_not_enabled hpe]
      exact Or.inl rfl
    | true =>
      rw [ho] at hoe
      rw [hp] at hpe
      refine Or.inr ⟨o.inner.operands.map s.env,
        o.inner.kind.outputs I (o.inner.operands.map s.env) s.cells,
        p.inner.operands.map s.env,
        p.inner.kind.outputs I (p.inner.operands.map s.env) s.cells, ?_, ?_⟩
      · rw [step_of_enabled hpe, h.symm.step_after, step_of_enabled ho]
        rfl
      · rw [step_of_enabled hoe, h.step_after, step_of_enabled hp]
        rfl

theorem Independent.apply_env {ao oo ap op : List Val} (s : State Val) :
    ((s.apply I obs o.inner ao oo).apply I obs p.inner ap op).env =
      ((s.apply I obs p.inner ap op).apply I obs o.inner ao oo).env :=
  (setResults_comm h.binds_binds).symm

theorem Independent.apply_cells {ao oo ap op : List Val} (s : State Val) :
    ((s.apply I obs o.inner ao oo).apply I obs p.inner ap op).cells =
      ((s.apply I obs p.inner ap op).apply I obs o.inner ao oo).cells :=
  (OpKind.write_comm h.writes_writes).symm

/-- Independent operations commute up to the order of their effects. -/
theorem Independent.similar (s : State Val) :
    (p.step I obs (o.step I obs s)).Similar (o.step I obs (p.step I obs s)) := by
  rcases h.step_step I obs s with heq | ⟨ao, oo, ap, op, hl, hr⟩
  · rw [heq]
    exact ⟨rfl, rfl, .rfl⟩
  · rw [hl, hr]
    refine ⟨h.apply_env s, h.apply_cells s, ?_⟩
    simp only [State.apply, List.append_assoc]
    exact List.perm_append_comm.append_left _

/-- Independent operations commute if at most one of them is observed. -/
theorem Independent.comm (hobs : obs o.inner.kind = false ∨ obs p.inner.kind = false)
    (s : State Val) :
    p.step I obs (o.step I obs s) = o.step I obs (p.step I obs s) := by
  rcases h.step_step I obs s with heq | ⟨ao, oo, ap, op, hl, hr⟩
  · exact heq
  · rw [hl, hr]
    refine State.ext (h.apply_env s) (h.apply_cells s) ?_
    rcases hobs with hq | hq <;> simp [State.apply, hq]

end Operation

theorem State.Similar.step (o : Operation) (h : s.Similar t) :
    (o.step I obs s).Similar (o.step I obs t) := by
  rcases Operation.step_alike I obs (fun v _ => congrFun h.env.symm v)
    (fun c _ => congrFun h.cells.symm c) with ⟨-, hs, ht⟩ | ⟨args, outs, hs, ht⟩
  · rwa [hs, ht]
  · rw [hs, ht]
    refine ⟨?_, ?_, h.trace.append_right _⟩
    · rw [State.apply, State.apply, h.env]
    · rw [State.apply, State.apply, h.cells]

variable (I obs) in
/-- Similarity can be carried through a run. -/
theorem similar_compatible : Reorder.Compatible (Operation.step I obs) (@State.Similar Val) where
  refl _ := ⟨rfl, rfl, .rfl⟩
  trans _ _ _ h h' :=
    ⟨h.env.trans h'.env, h.cells.trans h'.cells, h.trace.trans h'.trace⟩
  mono o _ _ h := h.step o

variable (I obs) in
theorem eq_compatible : Reorder.Compatible (Operation.step I obs) (Eq (α := State Val)) where
  refl _ := rfl
  trans _ _ _ h h' := h.trans h'
  mono _ _ _ h := by rw [h]

end Alkali
