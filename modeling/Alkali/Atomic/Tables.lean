import Alkali.Atomic.Agree

/-!
# Atomic updates and the tables

The replacement of a lookup, an addition and an update by an atomic update is
compared with the original handler instruction by instruction. The tables agree
as long as the atomic update writes what the update would have written.
-/

namespace Alkali

open Function Instr Operation

variable {Val : Type} [Inhabited Val] [DecidableEq Val] [AddGroup Val]

/-- Additions and subtractions of numbers; the opcode 1 of an atomic update is an
addition. -/
structure NumberInterp (Val : Type) [AddGroup Val] extends Interp Val where
  eval_add : ∀ a b, eval (.compute "add") [a, b] = [a + b]
  eval_sub : ∀ a b, eval (.compute "sub") [a, b] = [a - b]
  atomic_one : ∀ old v, atomic 1 old v = old + v

namespace AtomicMatch

variable (m : AtomicMatch) (s : State Val)

/-- The key and the value of the update. -/
def storeKey : Val := (m.store.operands.map s.env).getD 1 default
def storeValue : Val := (m.store.operands.map s.env).getD 2 default

/-- The key of the lookup and the operand that is added. -/
def loadKey : Val := (m.atomic.operands.map s.env).getD 1 default
def operand : Val := (m.atomic.operands.map s.env).getD 2 default

/-- The update writes the entry that was looked up, which the operand is missing
to the written value; or it writes what another entry has already, and nothing
is added. -/
def SameEntry : Prop :=
  m.storeKey s = m.loadKey s ∧
      s.cells (.table m.table) (m.loadKey s) = m.storeValue s - m.operand s ∨
    m.storeKey s ≠ m.loadKey s ∧ m.operand s = 0 ∧
      s.cells (.table m.table) (m.storeKey s) = m.storeValue s

end AtomicMatch

omit [Inhabited Val] [AddGroup Val] in
theorem update_eq_update_iff {entries : Val → Val} {a b x y : Val} :
    update entries a x = update entries b y ↔
      a = b ∧ x = y ∨ a ≠ b ∧ entries a = x ∧ entries b = y := by
  constructor
  · intro h
    have ha := congrFun h a
    have hb := congrFun h b
    by_cases hab : a = b
    · subst hab
      rw [update_self, update_self] at ha
      exact Or.inl ⟨rfl, ha⟩
    · rw [update_self, update_of_ne hab] at ha
      rw [update_self, update_of_ne (Ne.symm hab)] at hb
      exact Or.inr ⟨hab, ha.symm, hb⟩
  · rintro (⟨rfl, rfl⟩ | ⟨_, rfl, rfl⟩)
    · rfl
    · rw [update_eq_self, update_eq_self]

namespace FuncOp

variable {f g : FuncOp} {load : PlainOp} {m : AtomicMatch} {table key value : Value}
  {I : NumberInterp Val}

/-- Both updates write the same exactly under the condition. -/
theorem IsMatch.cells_eq_iff (hm : f.IsMatch load m table key value) {s t : State Val}
    (hcells : s.cells = t.cells)
    (hargs : m.atomic.operands.map s.env = m.atomic.operands.map t.env) :
    (m.store.step I.toInterp events s).cells = (m.atomic.step I.toInterp events t).cells ↔
      m.SameEntry s := by
  rw [PlainOp.step_cells, PlainOp.step_cells, OpKind.write, OpKind.write, hm.store_kind,
    hm.atomic_kind, ← hargs, ← hcells]
  simp only [OpKind.writes, OpKind.key, OpKind.stored, I.atomic_one]
  rw [(update_injective s.cells (.table m.table)).eq_iff, update_eq_update_iff]
  refine or_congr (and_congr_right fun hkey => ?_) (and_congr_right fun _ => ?_)
  · rw [eq_comm, eq_sub_iff_add_eq]
    rfl
  · rw [eq_comm (b := s.cells _ _ + _), add_eq_left]
    exact and_comm

section Store

variable {o : Operation} {s t : State Val}

theorem inner_replace {old new : PlainOp} (h : o.inner = old) :
    (o.replace old new).inner = new := by
  cases o with
  | plain op => exact if_pos h
  | guard id preds predAttrs body => exact if_pos h

section

variable (hm : f.IsMatch load m table key value)
include hm

omit [Inhabited Val] [DecidableEq Val] [AddGroup Val] in
/-- The guard of the update lets both updates through, or none. -/
theorem IsMatch.enabled_replace (ho : o ∈ f.operations)
    {I : Interp Val} (h : AgreeExcept [m.result] s t) :
    (o.replace m.store m.atomic).enabled I t.env = o.enabled I s.env := by
  cases o with
  | plain op => rfl
  | guard id preds predAttrs body =>
    refine (h.enabled (o := .guard id preds predAttrs body) ?_).symm
    simpa using hm.not_mem_operands ho (by simp)

/-- An executed update and the atomic update in its place. -/
theorem IsMatch.step_of_enabled (ho : o ∈ f.operations)
    (hstore : o.inner = m.store) (h : AgreeExcept [m.result] s t)
    (hen : o.enabled I.toInterp s.env = true) :
    o.step I.toInterp events s = m.store.step I.toInterp events s ∧
      (o.replace m.store m.atomic).step I.toInterp events t =
        m.atomic.step I.toInterp events t := by
  rw [Operation.step_of_enabled hen, hstore,
    Operation.step_of_enabled ((hm.enabled_replace ho h).trans hen), inner_replace hstore]
  exact ⟨rfl, rfl⟩

omit [Inhabited Val] [DecidableEq Val] [AddGroup Val] in
theorem IsMatch.map_atomic (hload : .plain load ∈ f.walk) (h : AgreeExcept [m.result] s t) :
    m.atomic.operands.map s.env = m.atomic.operands.map t.env :=
  h.map (by simpa using hm.not_mem_atomic hload)

/-- The update and the atomic update in its place. -/
theorem IsMatch.step_store (hload : .plain load ∈ f.walk)
    (ho : o ∈ f.operations) (hstore : o.inner = m.store) (h : AgreeExcept [m.result] s t)
    (hent : o.enabled I.toInterp s.env = true → m.SameEntry s) :
    AgreeExcept [m.result] (o.step I.toInterp events s)
      ((o.replace m.store m.atomic).step I.toInterp events t) := by
  cases hen : o.enabled I.toInterp s.env with
  | false =>
    rw [step_of_not_enabled hen, step_of_not_enabled ((hm.enabled_replace ho h).trans hen)]
    exact h
  | true =>
    obtain ⟨hs, ht⟩ := hm.step_of_enabled ho hstore h hen
    rw [hs, ht]
    refine ⟨?_, (hm.cells_eq_iff h.cells (hm.map_atomic hload h)).mpr (hent hen), ?_⟩
    · intro v hv
      rw [PlainOp.step_env, PlainOp.step_env, hm.store_results, hm.atomic_results,
        setResults_of_not_mem (by simp), setResults_of_not_mem (by simp), h.env v hv]
    · rw [PlainOp.step_trace, PlainOp.step_trace, PlainOp.recorded, PlainOp.recorded,
        hm.store_kind, hm.atomic_kind, h.trace]
      rfl

theorem IsMatch.filterMap_store (hstore : o.inner = m.store) :
    [op o].filterMap (filterMapOp m.rewriteOp) = [op (o.replace m.store m.atomic)] := by
  have hrewrite : m.rewriteOp o = some (o.replace m.store m.atomic) := by
    refine if_neg fun huser => ?_
    have hkind := hm.store_kind
    rw [← hstore, huser] at hkind
    rcases hm.user_kind with h | h <;> simp [h] at hkind
  simp [filterMapOp, hrewrite]

end

end Store

theorem replace_of_ne {o : Operation} {old new : PlainOp} (h : o.inner ≠ old) :
    o.replace old new = o := by
  cases o with
  | plain op =>
    rw [inner_plain] at h
    rw [replace, if_neg h]
  | guard id preds predAttrs body =>
    rw [inner_guard] at h
    rw [replace, if_neg h]

/-- One instruction of the handler and what replaces it. -/
theorem IsMatch.step_replace (hm : f.IsMatch load m table key value) (hload : .plain load ∈ f.walk)
    {w : List Leg} (hw : f.Walk 0 w) {x : Instr} (hx : x ∈ f.code w) {s t : State Val}
    (h : AgreeExcept [m.result] s t)
    (hent : ∀ o, x = .op o → o.inner = m.store → o.enabled I.toInterp s.env = true →
      m.SameEntry s) :
    Option.Rel (AgreeExcept [m.result]) (execInstrs I.toInterp events [x] s)
      (execInstrs I.toInterp events ([x].filterMap (filterMapOp m.rewriteOp)) t) := by
  have hunused (hstore : ∀ o, x = .op o → o.inner ≠ m.store) : Option.Rel (AgreeExcept [m.result])
      (execInstrs I.toInterp events [x] s) (execInstrs I.toInterp events [x] t) :=
    h.instrs (by simpa using hm.not_mem_uses hw hx hstore)
  cases x with
  | op o =>
    have ho : o ∈ f.operations := mem_operations_of_code hw hx
    by_cases huser : o.inner = m.user
    · have hpure : o.inner.kind.isPure := by
        rw [huser]
        rcases hm.user_kind with hk | hk <;> rw [hk] <;> rfl
      have herased : [op o].filterMap (filterMapOp m.rewriteOp) = [] := by
        simp [filterMapOp, AtomicMatch.rewriteOp, huser]
      rw [herased]
      refine .some (h.erase hpure ?_ ?_)
      · rw [huser]
        rcases hm.user_kind with hk | hk <;> rw [hk] <;> rfl
      · rw [Operation.binds, huser, hm.result]
        exact List.Subset.refl _
    · by_cases hstore : o.inner = m.store
      · rw [hm.filterMap_store hstore]
        exact .some (hm.step_store hload ho hstore h (hent o rfl hstore))
      · have hkept : [op o].filterMap (filterMapOp m.rewriteOp) = [.op o] := by
          simp [filterMapOp, AtomicMatch.rewriteOp, huser, replace_of_ne hstore]
        rw [hkept]
        exact hunused fun p hp => by cases hp; exact hstore
  | bind dests srcs => exact hunused (by rintro _ ⟨⟩)
  | test cond want => exact hunused (by rintro _ ⟨⟩)

section Execution

variable (f m) (I : NumberInterp Val) (inputs : List Val) (cells : Cell → Val → Val)

/-- The code up to a point of a walk, from the state in which the handler is
called. -/
def reaches (w : List Leg) (front : List Instr) (s : State Val) : Prop :=
  f.Walk 0 w ∧ front <+: f.code w ∧
    execInstrs I.toInterp events front (initialState (f.argsOf 0) inputs cells) = some s

/-- At every point of an execution the tables are those of the replaced handler. -/
def AgreesThroughout : Prop :=
  ∀ w front s, f.reaches I inputs cells w front s →
    ∃ t, execInstrs I.toInterp events (front.filterMap (filterMapOp m.rewriteOp))
      (initialState (f.argsOf 0) inputs cells) = some t ∧ t.cells = s.cells

/-- Whenever the update is executed, the atomic update writes the same. -/
def WritesSame : Prop :=
  ∀ w front s o, f.reaches I inputs cells w front s → front ++ [.op o] <+: f.code w →
    o.inner = m.store → o.enabled I.toInterp s.env = true → m.SameEntry s

variable {f m I inputs cells}

/-- Whenever the update is reached on the walk with the result alone being different, the atomic
update writes the same. -/
def WritesSameOn (f : FuncOp) (m : AtomicMatch) (I : NumberInterp Val) (inputs : List Val)
    (cells : Cell → Val → Val) (w : List Leg) : Prop :=
  ∀ front s t o, f.reaches I inputs cells w front s →
    execInstrs I.toInterp events (front.filterMap (filterMapOp m.rewriteOp))
      (initialState (f.argsOf 0) inputs cells) = some t → AgreeExcept [m.result] s t →
    front ++ [.op o] <+: f.code w → o.inner = m.store →
    o.enabled I.toInterp s.env = true → m.SameEntry s

section

variable (hm : f.IsMatch load m table key value) (hload : .plain load ∈ f.walk)
include hm hload

/-- The replaced code follows the code up to any point, if the updates on the way
write the same. -/
theorem IsMatch.related {w : List Leg} (hw : f.Walk 0 w)
    (hsame : f.WritesSameOn m I inputs cells w) (front : List Instr) (hfront : front <+: f.code w) :
    let s₀ := initialState (f.argsOf 0) inputs cells
    Option.Rel (AgreeExcept [m.result]) (execInstrs I.toInterp events front s₀)
      (execInstrs I.toInterp events (front.filterMap (filterMapOp m.rewriteOp)) s₀) := by
  intro s₀
  induction front using List.reverseRecOn with
  | nil => exact .some ⟨fun _ _ => rfl, rfl, rfl⟩
  | append_singleton front x ih =>
    have hpre : front <+: f.code w := (List.prefix_append _ _).trans hfront
    rw [List.filterMap_append, execInstrs_append, execInstrs_append]
    exact Fallible.rel_bind (ih hpre) fun s t hs ht hst =>
      hm.step_replace hload hw (hfront.subset (by simp)) hst fun o ho hstore hen =>
        hsame front s t o ⟨hw, hpre, hs⟩ ht hst (ho ▸ hfront) hstore hen

/-- Point by point the tables agree exactly if the updates write the same. -/
theorem IsMatch.agreesThroughout_iff :
    f.AgreesThroughout m I inputs cells ↔ f.WritesSame m I inputs cells := by
  constructor
  · intro hagree w front s o hreach hnext hstore hen
    obtain ⟨hw, hfront, hs⟩ := hreach
    -- what the replaced code does at the update is known from the agreement after it
    have hent : f.WritesSameOn m I inputs cells w := by
      intro front s t o ⟨_, hfront, hs⟩ ht hst hnext hstore hen
      have ho : o ∈ f.operations := mem_operations_of_code hw (hnext.subset (by simp))
      obtain ⟨hstep, hstep'⟩ := hm.step_of_enabled ho hstore hst hen
      obtain ⟨t', ht', hcells⟩ := hagree w (front ++ [.op o]) _
        ⟨hw, hnext, by rw [execInstrs_append, hs]; rfl⟩
      rw [List.filterMap_append, execInstrs_append, ht, hm.filterMap_store hstore] at ht'
      cases ht'
      rw [hstep, hstep'] at hcells
      exact (hm.cells_eq_iff hst.cells (hm.map_atomic hload hst)).mp hcells.symm
    obtain ⟨t, ht, hst⟩ := Fallible.exists_of_rel (hm.related hload hw hent front hfront) hs
    exact hent front s t o ⟨hw, hfront, hs⟩ ht hst hnext hstore hen
  · intro hsame w front s ⟨hw, hfront, hs⟩
    obtain ⟨t, ht, hst⟩ := Fallible.exists_of_rel (hm.related hload hw
      (fun front s _ o hreach _ _ => hsame w front s o hreach) front hfront) hs
    exact ⟨t, ht, hst.cells.symm⟩

end

end Execution

end FuncOp

end Alkali
