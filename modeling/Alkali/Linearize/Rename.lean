import Alkali.Library.Fallible
import Alkali.Linearize.Motion

/-!
# Replacing values

Instructions do the same when every use of a value is replaced by a use of
another value that is equal, as long as neither of the two is bound again.
-/

namespace Alkali

open List Fallible

/-- The value that takes the place of `v` when results are replaced. -/
def replaceValue (results results' : List Value) (v : Value) : Value :=
  if v ∈ results then results'.getD (results.idxOf v) v else v

variable {rs rs' : List Value} {v : Value}

theorem replaceValue_of_not_mem (h : v ∉ rs) : replaceValue rs rs' v = v := if_neg h

theorem replaceValue_mem (hlen : rs'.length = rs.length) (h : v ∈ rs) :
    replaceValue rs rs' v ∈ rs' := by
  have hi : rs.idxOf v < rs'.length := hlen ▸ idxOf_lt_length_of_mem h
  rw [replaceValue, if_pos h, getD_eq_getElem?_getD, getElem?_eq_getElem hi]
  exact getElem_mem hi

theorem idxOf_replaceValue (hlen : rs'.length = rs.length) (hnd : rs'.Nodup) (h : v ∈ rs) :
    rs'.idxOf (replaceValue rs rs' v) = rs.idxOf v := by
  have hi : rs.idxOf v < rs'.length := hlen ▸ idxOf_lt_length_of_mem h
  rw [replaceValue, if_pos h, getD_eq_getElem?_getD, getElem?_eq_getElem hi]
  exact hnd.idxOf_getElem _ hi

variable (σ : Value → Value)

def PlainOp.rename (o : PlainOp) : PlainOp :=
  { o with operands := o.operands.map σ }

def Operation.rename : Operation → Operation
  | plain op => plain (op.rename σ)
  | guard id preds predAttrs body => guard id (preds.map σ) predAttrs (body.rename σ)

def Terminator.rename : Terminator → Terminator
  | terminate => terminate
  | br dest args => br dest (args.map σ)
  | condBr cond trueDest trueArgs falseDest falseArgs =>
    condBr (σ cond) trueDest (trueArgs.map σ) falseDest (falseArgs.map σ)

def Instr.rename : Instr → Instr
  | op o => op (o.rename σ)
  | bind dests srcs => bind dests (srcs.map σ)
  | test cond want => test (σ cond) want

section Footprint

variable (σ : Value → Value) (o : Operation)

@[simp] theorem Operation.kind_rename : (o.rename σ).inner.kind = o.inner.kind := by cases o <;> rfl

@[simp] theorem Operation.results_rename :
    (o.rename σ).inner.results = o.inner.results := by cases o <;> rfl

@[simp] theorem Operation.binds_rename : (o.rename σ).binds = o.binds := by
  rw [binds, results_rename, binds]

@[simp] theorem Operation.defs_rename : (o.rename σ).defs = o.defs := by
  cases o <;> rfl

@[simp] theorem Operation.uses_rename : (o.rename σ).uses = o.uses.map σ := by
  cases o <;> simp [rename, uses, PlainOp.rename]

@[simp] theorem Instr.defs_rename (x : Instr) : (x.rename σ).defs = x.defs := by
  cases x with
  | op o => exact o.defs_rename σ
  | bind => rfl
  | test => rfl

@[simp] theorem Instr.uses_rename (x : Instr) : (x.rename σ).uses = x.uses.map σ := by
  cases x with
  | op o => exact o.uses_rename σ
  | bind => rfl
  | test => rfl

@[simp] theorem Terminator.successors_rename (t : Terminator) :
    (t.rename σ).successors = t.successors := by cases t <;> rfl

end Footprint

section Identity

variable {σ : Value → Value}

theorem map_eq_self {vs : List Value} (h : ∀ v ∈ vs, σ v = v) : vs.map σ = vs :=
  (map_congr_left h).trans (map_id' vs)

theorem Operation.rename_eq_self {o : Operation} (h : ∀ v ∈ o.uses, σ v = v) : o.rename σ = o := by
  cases o with
  | plain op =>
    have hop : op.operands.map σ = op.operands :=
      map_eq_self fun v hv => h v (mem_uses.mpr (Or.inl hv))
    rw [rename, PlainOp.rename, hop]
  | guard id preds predAttrs body =>
    have hpreds : preds.map σ = preds :=
      map_eq_self fun v hv => h v (mem_uses.mpr (Or.inl hv))
    have hbody : body.operands.map σ = body.operands :=
      map_eq_self fun v hv => h v (mem_uses.mpr (Or.inr hv))
    rw [rename, PlainOp.rename, hpreds, hbody]

theorem Instr.rename_eq_self {x : Instr} (h : ∀ v ∈ x.uses, σ v = v) : x.rename σ = x := by
  cases x with
  | op o => rw [rename, Operation.rename_eq_self h]
  | bind dests srcs =>
    have hsrcs : srcs.map σ = srcs := map_eq_self h
    rw [rename, hsrcs]
  | test cond want => rw [rename, h cond (by simp [uses])]

variable {xs : List Instr}

/-- Replacing values that are not used changes nothing. -/
theorem map_rename_eq_self (h : ∀ x ∈ xs, ∀ v ∈ x.uses, σ v = v) : xs.map (Instr.rename σ) = xs :=
  (map_congr_left fun x hx => Instr.rename_eq_self (h x hx)).trans (map_id' xs)

/-- Renamed values are available if the values that take their place are. -/
theorem InstrsFrom.rename {A B : List Value} (h : InstrsFrom A xs) (hAB : ∀ v ∈ A, σ v ∈ B)
    (hdefs : ∀ x ∈ xs, ∀ v ∈ x.defs, σ v = v) : InstrsFrom B (xs.map (Instr.rename σ)) := by
  induction xs generalizing A B with
  | nil => trivial
  | cons x xs ih =>
    refine ⟨?_, ih h.2 ?_ fun y hy => hdefs y (by simp [hy])⟩
    · rw [Instr.uses_rename]
      intro u hu
      obtain ⟨v, hv, rfl⟩ := mem_map.mp hu
      exact hAB v (h.1 v hv)
    · intro v hv
      rw [Instr.defs_rename]
      rcases mem_append.mp hv with hA | hd
      · exact mem_append_left _ (hAB v hA)
      · rw [hdefs x (by simp) v hd]
        exact mem_append_right _ hd

end Identity

section Execution

variable {Val : Type} [Inhabited Val] [DecidableEq Val] {I : Interp Val} {obs : OpKind → Bool}
  {σ : Value → Value}

/-- A state in which every value is that of the value it is replaced by in
another state. -/
structure Renamed (σ : Value → Value) (s t : State Val) : Prop where
  env : ∀ v, t.env (σ v) = s.env v
  cells : t.cells = s.cells
  trace : t.trace = s.trace

/-- The values are neither replaced nor take the place of others. -/
def Untouched (σ : Value → Value) (vs : List Value) : Prop :=
  ∀ v ∈ vs, ∀ u, σ u = v ↔ u = v

omit [DecidableEq Val] in
/-- Binding the same values keeps a value that is not among them, and takes the place of none. -/
theorem setResults_rename {env env' : Value → Val} {rs : List Value} {v : Value}
    (h : env' (σ v) = env v) (hrs : ∀ r ∈ rs, σ v = r ↔ v = r) (outs : List Val) :
    setResults rs outs env' (σ v) = setResults rs outs env v := by
  by_cases hv : v ∈ rs
  · rw [(hrs v hv).mpr rfl]
    exact setResults_of_mem hv
  · have hσ : σ v ∉ rs := fun hmem => hv ((hrs _ hmem).mp rfl ▸ hmem)
    rw [setResults_of_not_mem hv, setResults_of_not_mem hσ, h]

variable {s t : State Val}

omit [Inhabited Val] [DecidableEq Val] in
theorem map_rename {vs : List Value} (h : ∀ v ∈ vs, t.env (σ v) = s.env v) :
    (vs.map σ).map t.env = vs.map s.env := by
  rw [map_map]
  exact map_congr_left h

/-- An operation with replaced values does the same. -/
theorem Operation.step_rename {o : Operation} (henv : ∀ v ∈ o.uses, t.env (σ v) = s.env v)
    (hcells : ∀ c, o.inner.kind.reads = some c → t.cells c = s.cells c) :
    o.step I obs s = s ∧ (o.rename σ).step I obs t = t ∨
      ∃ args outs, o.step I obs s = s.apply I obs o.inner args outs ∧
        (o.rename σ).step I obs t = t.apply I obs o.inner args outs := by
  have hen : (o.rename σ).enabled I t.env = o.enabled I s.env := by
    cases o with
    | plain op => rfl
    | guard id preds predAttrs body =>
      simp only [enabled, rename, guardHolds, zip_map_left, all_map]
      rw [Bool.eq_iff_iff, all_eq_true, all_eq_true]
      refine forall₂_congr fun p hp => ?_
      simp [henv p.1 (mem_uses.mpr (Or.inl (of_mem_zip hp).1))]
  have hargs : (o.rename σ).inner.operands.map t.env = o.inner.operands.map s.env := by
    have hmap := map_rename fun v hv => henv v (o.inner_operands_subset hv)
    cases o <;> exact hmap
  exact (steps_alike I obs (o.kind_rename σ) (o.results_rename σ) hen hargs hcells).imp_left
    And.right

variable {x : Instr}

/-- An instruction with replaced values fails or keeps states related, if binding values,
changing cells one by one and recording effects does. -/
theorem Instr.step_rename {R : State Val → State Val → Prop} (h : R s t)
    (henv : ∀ v ∈ x.uses, t.env (σ v) = s.env v)
    (hcells : ∀ o, x = .op o → ∀ c, o.inner.kind.reads = some c → t.cells c = s.cells c)
    (hset : ∀ outs e (w : (Cell → Val → Val) → Cell → Val → Val),
      (∀ c, t.cells c = s.cells c → w t.cells c = w s.cells c) →
      R ⟨setResults x.binds outs s.env, w s.cells, s.trace ++ e⟩
        ⟨setResults x.binds outs t.env, w t.cells, t.trace ++ e⟩) :
    Option.Rel R (x.step I obs s) ((x.rename σ).step I obs t) := by
  cases x with
  | op o =>
    refine .some ?_
    rcases Operation.step_rename henv (hcells o rfl) with ⟨hs, ht⟩ | ⟨args, outs, hs, ht⟩
    · rwa [hs, ht]
    · rw [hs, ht]
      exact hset outs _ (o.inner.kind.write I args) fun c hc => OpKind.write_congr hc
  | bind dests srcs =>
    refine .some ?_
    have hbind := hset (srcs.map s.env) [] id fun _ hc => hc
    rw [append_nil, append_nil] at hbind
    have hargs : (srcs.map σ).map t.env = srcs.map s.env := map_rename henv
    rw [State.bind, State.bind, hargs]
    exact hbind
  | test cond want =>
    simp only [Instr.step, Instr.rename, henv cond (by simp [Instr.uses])]
    split
    · exact .some h
    · exact .none

theorem Renamed.instr (h : Renamed σ s t) (hx : Untouched σ x.binds) :
    Option.Rel (Renamed σ) (x.step I obs s) ((x.rename σ).step I obs t) :=
  Instr.step_rename h (fun v _ => h.env v) (fun _ _ c _ => congrFun h.cells c) fun outs e _ hw =>
    ⟨fun v => setResults_rename (h.env v) (fun r hr => hx r hr v) outs,
      funext fun c => hw c (congrFun h.cells c), congrArg (· ++ e) h.trace⟩

/-- Instructions with replaced values have the same outcome. -/
theorem outcome_rename {xs : List Instr} (h : Renamed σ s t) (hxs : ∀ x ∈ xs, Untouched σ x.binds) :
    outcome (execInstrs I obs (xs.map (Instr.rename σ)) t) = outcome (execInstrs I obs xs s) := by
  have hrel : Option.Rel (Renamed σ) (execInstrs I obs xs s)
      (execInstrs I obs (xs.map (Instr.rename σ)) t) := by
    induction xs generalizing s t with
    | nil => exact .some h
    | cons x xs ih =>
      exact rel_bind (h.instr (hxs x (by simp))) fun s' t' _ _ hnext =>
        ih hnext fun y hy => hxs y (by simp [hy])
  exact (map_eq_of_rel hrel fun s t h => by rw [h.cells, h.trace]).symm

end Execution

end Alkali
