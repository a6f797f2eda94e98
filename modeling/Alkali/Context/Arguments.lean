import Alkali.Context.ToArgument

/-!
# Events and the arguments of their handlers

An event and its handler are joined by an edge, so they are in one component and are
rewritten with one table. A value that the event passes for a field has the type of the
field unless it is a stored value of another type.
-/

namespace Alkali.ContextToArgument

open Fallible HandlerDependencyAnalysis List HandlerGraph

section Module

variable {M : Mem2Reg} {moduleOp : List ModuleFunc} {orders : List (List FuncId)}

/-! ## The operands of an event and the arguments of its handler -/

section Operands

variable {f g : ModuleFunc} {op : PlainOp} {table : ContextTable}

theorem typeIn_loaded_iff {f : FuncOp} {e : String × Ty} :
    (M.loaded f op e).typeIn f = some e.2 ↔
      ∀ v, M.loads f op e.1 = some v → f.typeOf v = some e.2 := by
  rw [Mem2Reg.loaded]
  cases M.loads f op e.1 with
  | none => simp [EventOperand.typeIn]
  | some v => simp [EventOperand.typeIn]

/-- The other operands of an event are those of its handler, and the values of the fields
have the types of the fields. -/
def Fits (M : Mem2Reg) (f g : ModuleFunc) (op : PlainOp) (table : ContextTable) : Prop :=
  passed f.func op = taken g.func ∧
    ∀ e ∈ table, ∀ v, M.loads f.func op e.1 = some v → f.func.typeOf v = some e.2

/-- The arguments of a handler with a context, after the pass. -/
theorem rewriteArguments_of_handler (hpasses : PassesContext moduleOp)
    (hg : g ∈ handlersOf moduleOp) (hinner : ¬ g.isExtern) (inserts : Bool) :
    rewriteArguments g.func (some table) inserts =
      some (unnamed Prod.snd (g.func.args.eraseP (·.2 = .context)) ++
        if inserts then table else []) := by
  have hcontext : g.func.args.any (·.2 = .context) := by
    obtain ⟨a, ha, hctx⟩ := countP_pos_iff.mp
      (hpasses.handlers g hg hinner ▸ Nat.one_pos)
    exact any_eq_true.mpr ⟨a, ha, hctx⟩
  rw [rewriteArguments, if_pos hcontext]
  rfl

variable {args : List (String × Ty)}

/-- An event corresponds to its handler exactly if it fits. -/
theorem corresponds_iff (hpasses : PassesContext moduleOp) (h : Emits moduleOp f op g)
    {operands : List (String × EventOperand)}
    (hops : rewriteEventInit M f.func (some table) false op = some operands)
    (hargs : rewriteArguments g.func (some table) true = some args) :
    (dropAtom f.func operands).map (fun e => (e.1, e.2.typeIn f.func)) =
        args.map (fun e => (e.1, some e.2)) ↔ Fits M f g op table := by
  obtain ⟨a, vs, hop, hatom, hany⟩ := hpasses.events f op g h
  have ha : f.func.isContext a = false := by simp [FuncOp.isContext, hatom]
  rw [rewriteArguments_of_handler hpasses h.target_mem h.inner] at hargs
  rw [rewriteEventInit, hop, any_cons, ha, Bool.false_or, if_pos hany, eraseP_cons, ha] at hops
  cases hargs
  cases hops
  have hdrop : dropAtom f.func (unnamed .value (a :: vs.eraseP f.func.isContext) ++
      table.map fun e => (e.1, M.loaded f.func op e)) =
      unnamed .value (vs.eraseP f.func.isContext) ++
        table.map fun e => (e.1, M.loaded f.func op e) := by
    simp [unnamed, dropAtom, hatom]
  have hpass : passed f.func op = (vs.eraseP f.func.isContext).map f.func.typeOf := by
    simp [passed, FuncOp.mapped, hop, hatom]
  have hname : ∀ l l' : List (Option Ty),
      (l.map fun t => ("", t)) = (l'.map fun t => ("", t)) ↔ l = l' :=
    fun l l' => (map_injective_iff.mpr (Prod.mk_right_injective "")).eq_iff
  have hfields : table.map (fun e => (e.1, (M.loaded f.func op e).typeIn f.func)) =
      table.map (fun e => (e.1, some e.2)) ↔
        ∀ e ∈ table, ∀ v, M.loads f.func op e.1 = some v → f.func.typeOf v = some e.2 := by
    simp only [map_inj_left, Prod.mk.injEq, true_and, typeIn_loaded_iff]
  rw [Fits, hpass, taken, ← hname, ← hfields, map_map, map_map]
  simp only [cond_false, Bool.false_eq_true, if_false, if_true, hdrop]
  simp only [unnamed, map_append, map_map]
  constructor
  · intro heq
    obtain ⟨hleft, hright⟩ := append_inj' heq (by simp)
    exact ⟨hleft, hright⟩
  · rintro ⟨hleft, hright⟩
    exact congrArg₂ (· ++ ·) hleft hright

theorem not_mem_eraseP_of_countP {α : Type} {p : α → Bool} {l : List α} (h : l.countP p = 1)
    {a : α} (ha : a ∈ l.eraseP p) : ¬ p a := by
  obtain ⟨b, hb, hpb⟩ := countP_pos_iff.mp (h ▸ Nat.one_pos)
  obtain ⟨c, l₁, l₂, -, hc, rfl, heq⟩ := exists_of_eraseP hb hpb
  rw [countP_append, countP_cons_of_pos hc] at h
  have hzero : (l₁ ++ l₂).countP p = 0 := by
    rw [countP_append]
    omega
  exact countP_eq_zero.mp hzero a (heq ▸ ha)

/-- An event of an extern has a context, its handler has none any more. -/
theorem not_corresponds_extern (hpasses : PassesContext moduleOp) (h : Emits moduleOp f op g)
    (hfields : ∀ e ∈ table, e.1 ≠ "") {inserts : Bool}
    (hargs : rewriteArguments g.func (some table) inserts = some args) :
    (dropAtom f.func (unnamed .value op.operands)).map
        (fun e => (e.1, e.2.typeIn f.func)) ≠ args.map fun e => (e.1, some e.2) := by
  obtain ⟨a, vs, hop, hatom, hany⟩ := hpasses.events f op g h
  obtain ⟨v, hv, hctx⟩ := any_eq_true.mp hany
  rw [rewriteArguments_of_handler hpasses h.target_mem h.inner] at hargs
  cases hargs
  have hdrop : dropAtom f.func (unnamed .value op.operands) = unnamed .value vs := by
    simp [unnamed, dropAtom, hop, hatom]
  have hmem : ("", some Ty.context) ∈ (unnamed .value vs).map
      (fun e => (e.1, EventOperand.typeIn f.func e.2)) := by
    simp only [unnamed, map_map, mem_map]
    exact ⟨v, hv, by simpa [EventOperand.typeIn, FuncOp.isContext] using hctx⟩
  intro heq
  rw [hdrop] at heq
  rw [heq] at hmem
  obtain ⟨⟨name, ty⟩, he, hpair⟩ := mem_map.mp hmem
  cases hpair
  rcases mem_append.mp he with he | he
  · obtain ⟨arg, harg, heq⟩ := mem_map.mp he
    exact not_mem_eraseP_of_countP (hpasses.handlers g h.target_mem h.inner) harg
      (by simpa using (Prod.mk.inj heq).2)
  · split_ifs at he
    · exact hfields _ he rfl
    · cases he

end Operands

/-! ## The pass -/

section Run

variable {keepLastContext : Bool} {d : Dependencies} {f g : ModuleFunc} {a b : ArgumentFunc}
variable {table : Option ContextTable} {op : PlainOp}

theorem exists_rewriteArguments_iff {f : FuncOp} {inserts : Bool} :
    (∃ args, rewriteArguments f table inserts = some args) ↔
      ((∃ a ∈ f.args, a.2 = .context) → table.isSome) := by
  by_cases hany : f.args.any (·.2 = .context) <;> cases table <;> simp_all [rewriteArguments]

theorem exists_rewriteEventInit_iff {f : FuncOp} {noContext : Bool} :
    (∃ operands, rewriteEventInit M f table noContext op = some operands) ↔
      ((∃ v ∈ op.operands, f.isContext v) → table.isSome) := by
  rw [rewriteEventInit, ← any_eq_true]
  cases op.operands.any f.isContext <;> cases table <;> simp

theorem contextToArgument_eq_some {n : Nat} {out : List ArgumentFunc} :
    contextToArgument M keepLastContext n moduleOp = some out ↔
      ∃ d, HandlerDependencyAnalysis.analyze moduleOp = .ok d ∧
        ∃ components, getConnectedComponents d.graph n = some components ∧
          moduleOp.mapM (runOnFunction M keepLastContext moduleOp d components.2) = some out := by
  simp only [contextToArgument, Option.bind_eq_bind, Option.bind_eq_some_iff, toOption_eq_some]

theorem rewriteInit_eq_some {r : PlainOp × List (String × EventOperand)} :
    rewriteInit M keepLastContext moduleOp d orders f op = some r ↔
      ∃ next, lookupInit moduleOp f.func op = some next ∧
        ∃ operands, rewriteEventInit M f.func (getContextTable moduleOp orders f.id)
          (!keepLastContext && next.isExtern && !(next.id ∈ d.externForward)) op = some operands ∧
        (op, operands) = r := by
  simp only [rewriteInit, Option.bind_eq_bind, Option.bind_eq_some_iff, Option.some.injEq]

theorem runOnFunction_eq_some (hfor : ¬ f.isExtern) :
    runOnFunction M keepLastContext moduleOp d orders f = some a ↔
      ∃ args, rewriteArguments f.func (getContextTable moduleOp orders f.id)
          (hasPredecessor d f || f.id ∈ d.externForward) = some args ∧
        ∃ inits, f.func.eventInits.mapM (rewriteInit M keepLastContext moduleOp d orders f) =
          some inits ∧ M.succeeds f.func ((getContextTable moduleOp orders f.id).getD []) ∧
            ⟨f, args, inits⟩ = a := by
  simp only [runOnFunction, if_neg hfor, Option.bind_eq_bind, Option.bind_eq_some_iff,
    Option.ite_none_right_eq_some, Option.some.injEq]

theorem origin_of_runOnFunction (h : runOnFunction M keepLastContext moduleOp d orders f = some a) :
    a.origin = f := by
  by_cases hfor : f.isExtern
  · rw [runOnFunction, if_pos hfor] at h
    cases h
    rfl
  · obtain ⟨args, -, inits, -, -, rfl⟩ := (runOnFunction_eq_some hfor).mp h
    rfl

/-- A module whose handlers have names, with its graph and its components. -/
structure Analyzed (moduleOp : List ModuleFunc) (d : Dependencies) (orders : List (List FuncId)) :
    Prop where
  ids : (moduleOp.map ModuleFunc.id).Nodup
  names : NamesDefined moduleOp
  analyzed : HandlerDependencyAnalysis.analyze moduleOp = .ok d
  groups : Groups d.graph orders

variable (hm : Analyzed moduleOp d orders)
include hm

theorem exists_getContextTable_of_handler (hf : f ∈ handlersOf moduleOp)
    (hfor : ¬ f.isExtern) : ∃ table, getContextTable moduleOp orders f.id = some table :=
  exists_getContextTable_iff.mpr
    ((hm.groups.covers f.id).mpr (mem_keys_of_handler hm.ids hm.names hm.analyzed hf hfor))

/-- An event and its handler are rewritten with the same table. -/
theorem Emits.corresponds_iff_run (hpasses : PassesContext moduleOp)
    (h : Emits moduleOp f op g) (hfor : ¬ f.isExtern)
    (ha : runOnFunction M keepLastContext moduleOp d orders f = some a)
    (hb : runOnFunction M keepLastContext moduleOp d orders g = some b)
    {operands : List (String × EventOperand)} (hinit : (op, operands) ∈ a.inits)
    {table : ContextTable} (htab : getContextTable moduleOp orders f.id = some table) :
    (dropAtom f.func operands).map (fun e => (e.1, e.2.typeIn f.func)) =
        b.args.map (fun e => (e.1, some e.2)) ↔ Fits M f g op table := by
  have hedge : g.id ∈ targets d.graph f.id :=
    (sends_iff_mem_targets hm.ids hm.names hm.analyzed h.handler hfor h.target_mem).mpr
      (h.sends hm.names)
  have htab' : getContextTable moduleOp orders g.id = some table :=
    (getContextTable_eq_of_linked hm.groups (Or.inl hedge)).symm.trans htab
  have hpred : hasPredecessor d g = true := by
    obtain ⟨e, he, hmem⟩ := mem_flatMap.mp (mem_edgeList.mpr hedge)
    obtain ⟨j, hj, heq⟩ := mem_map.mp hmem
    exact any_eq_true.mpr ⟨e, he, by simpa [← (Prod.mk.inj heq).2] using hj⟩
  obtain ⟨args, -, inits, hinits, -, rfl⟩ := (runOnFunction_eq_some hfor).mp ha
  obtain ⟨args', hargs', inits', -, -, rfl⟩ := (runOnFunction_eq_some h.inner).mp hb
  obtain ⟨op', -, hop'⟩ := (mem_mapM_iff hinits).mp hinit
  obtain ⟨next, hnext, operands', hops, heq⟩ := rewriteInit_eq_some.mp hop'
  obtain ⟨rfl, rfl⟩ := Prod.mk.inj heq
  obtain rfl := Option.some.inj (hnext.symm.trans h.target)
  have hinner : next.isExtern = false := by simpa using h.inner
  rw [htab, hinner, Bool.and_false, Bool.false_and] at hops
  rw [htab', hpred, Bool.true_or] at hargs'
  exact corresponds_iff hpasses h hops hargs'

section Success

variable {out : List ArgumentFunc}
  (hmap : moduleOp.mapM (runOnFunction M keepLastContext moduleOp d orders) = some out)

include hmap

omit hm in
/-- A function is rewritten. -/
theorem exists_rewritten (hf : f ∈ moduleOp) :
    ∃ a ∈ out, runOnFunction M keepLastContext moduleOp d orders f = some a := by
  obtain ⟨a, ha⟩ := exists_mapM_iff.mp ⟨out, hmap⟩ f hf
  exact ⟨a, (mem_mapM_iff hmap).mpr ⟨f, hf, ha⟩, ha⟩

variable {op : PlainOp}

theorem not_extern_of_corresponds (hpasses : PassesContext moduleOp)
    (hcorr : Corresponds moduleOp out) (h : Emits moduleOp f op g) : ¬ f.isExtern := by
  intro hfor
  obtain ⟨a, hamem, ha⟩ := exists_rewritten hmap (mem_of_mem_filter h.handler)
  obtain ⟨b, hbmem, hb⟩ := exists_rewritten hmap (mem_of_mem_filter h.target_mem)
  obtain ⟨table, htab⟩ := exists_getContextTable_of_handler hm h.target_mem h.inner
  rw [runOnFunction, if_pos hfor] at ha
  cases ha
  obtain ⟨args, hargs, inits, -, -, rfl⟩ := (runOnFunction_eq_some h.inner).mp hb
  rw [htab] at hargs
  refine not_corresponds_extern hpasses h (fun e he => ?_) hargs
    (hcorr _ hamem op _ (mem_map_of_mem h.mem_eventInits) _ hbmem h)
  obtain ⟨f', hf', href⟩ := exists_ref_of_getContextTable htab he
  exact hpasses.fields f' hf' e href

theorem types_of_corresponds (hpasses : PassesContext moduleOp)
    (hcorr : Corresponds moduleOp out) (h : Emits moduleOp f op g)
    {table : ContextTable} (htab : getContextTable moduleOp orders f.id = some table) :
    Fits M f g op table := by
  have hfor := not_extern_of_corresponds hm hmap hpasses hcorr h
  obtain ⟨a, hamem, ha⟩ := exists_rewritten hmap (mem_of_mem_filter h.handler)
  obtain ⟨b, hbmem, hb⟩ := exists_rewritten hmap (mem_of_mem_filter h.target_mem)
  obtain ⟨args, hargs, inits, hinits, -, rfl⟩ := (runOnFunction_eq_some hfor).mp ha
  obtain ⟨⟨op', operands⟩, hop⟩ := exists_mapM_iff.mp ⟨inits, hinits⟩ op h.mem_eventInits
  obtain ⟨next, -, _, -, heq⟩ := rewriteInit_eq_some.mp hop
  obtain ⟨rfl, rfl⟩ := Prod.mk.inj heq
  have hinit := (mem_mapM_iff hinits).mpr ⟨_, h.mem_eventInits, hop⟩
  exact (h.corresponds_iff_run hm hpasses hfor ha hb hinit htab).mp
    (hcorr _ hamem _ _ hinit _ hbmem ((origin_of_runOnFunction hb).symm ▸ h))

end Success

/-- Where a table is needed there is one. -/
theorem exists_runOnFunction (hhandled : Handled moduleOp) (hf : f ∈ moduleOp)
    (hpipeline : ¬ f.isExtern →
      M.succeeds f.func ((getContextTable moduleOp orders f.id).getD [])) :
    ∃ a, runOnFunction M keepLastContext moduleOp d orders f = some a := by
  by_cases hfor : f.isExtern
  · rw [runOnFunction, if_pos hfor]
    exact ⟨_, rfl⟩
  · have htab : (∃ a ∈ f.func.args, a.2 = .context) ∨
        (∃ op ∈ f.func.eventInits, ∃ v ∈ op.operands, f.func.isContext v) →
          (getContextTable moduleOp orders f.id).isSome := by
      by_cases htype : f.type = .handler
      · exact fun _ => Option.isSome_iff_exists.mpr (exists_getContextTable_of_handler hm
          (mem_filter.mpr ⟨hf, by simpa using htype⟩) hfor)
      · obtain ⟨hargs, hinits⟩ := hhandled.contexts f hf hfor htype
        rintro (⟨a, ha, hctx⟩ | ⟨op, hop, v, hv, hctx⟩)
        · exact absurd hctx (hargs a ha)
        · exact absurd hctx (hinits op hop v hv)
    obtain ⟨args, hargs⟩ := exists_rewriteArguments_iff.mpr fun hctx => htab (Or.inl hctx)
    have hinits : ∃ inits, f.func.eventInits.mapM
        (rewriteInit M keepLastContext moduleOp d orders f) = some inits := by
      refine exists_mapM_iff.mpr fun op hop => ?_
      obtain ⟨next, hnext⟩ := Option.isSome_iff_exists.mp (hhandled.handled f hf hfor op hop)
      obtain ⟨operands, hops⟩ := exists_rewriteEventInit_iff.mpr fun hctx =>
        htab (Or.inr ⟨op, hop, hctx⟩)
      exact ⟨_, rewriteInit_eq_some.mpr ⟨next, hnext, operands, hops, rfl⟩⟩
    obtain ⟨inits, hinits⟩ := hinits
    exact ⟨_, (runOnFunction_eq_some hfor).mpr
      ⟨args, hargs, inits, hinits, hpipeline hfor, rfl⟩⟩

/-- The table of a function does not depend on the fuel. -/
theorem tableOf_iff {n : Nat} {subGraphs : List (OrderedMap FuncId (List FuncId))}
    (hcomp : getConnectedComponents d.graph n = some (subGraphs, orders))
    {table : ContextTable} :
    TableOf moduleOp f table ↔ getContextTable moduleOp orders f.id = some table := by
  constructor
  · rintro ⟨d', m, subGraphs', orders', hd', hcomp', htab⟩
    obtain rfl := Except.ok.inj (hm.analyzed.symm.trans hd')
    have heq := (getConnectedComponents_mono hcomp (le_max_left n m)).symm.trans
      (getConnectedComponents_mono hcomp' (le_max_right n m))
    cases heq
    exact htab
  · exact fun htab => ⟨d, n, subGraphs, orders, hm.analyzed, hcomp, htab⟩

section Sound

variable (hM : M.Documented) (hpasses : PassesContext moduleOp) {n : Nat}
  {subGraphs : List (OrderedMap FuncId (List FuncId))}
  (hcomp : getConnectedComponents d.graph n = some (subGraphs, orders))
  {out : List ArgumentFunc}
  (hmap : moduleOp.mapM (runOnFunction M keepLastContext moduleOp d orders) = some out)

include hM hpasses hcomp hmap

theorem sound_of_corresponds (hcorr : Corresponds moduleOp out) : Sound moduleOp := by
  have hexterns : ∀ f op g, Emits moduleOp f op g → ¬ f.isExtern := fun _ _ _ h =>
    not_extern_of_corresponds hm hmap hpasses hcorr h
  refine ⟨hexterns, fun f op g h => ?_, fun f op g h table htab e he store v honly hvalue => ?_⟩
  · obtain ⟨table, htab⟩ := exists_getContextTable_of_handler hm h.handler (hexterns f op g h)
    exact (types_of_corresponds hm hmap hpasses hcorr h htab).1
  · exact (types_of_corresponds hm hmap hpasses hcorr h ((tableOf_iff hm hcomp).mp htab)).2 e he v
      ((hM.loads f.func op e.1 v h.reached).mpr ⟨store, honly, hvalue⟩)

theorem corresponds_of_sound (hsound : Sound moduleOp) : Corresponds moduleOp out := by
  intro a ha op operands hinit b hb h
  obtain ⟨f, -, hf⟩ := (mem_mapM_iff hmap).mp ha
  obtain ⟨g, -, hg⟩ := (mem_mapM_iff hmap).mp hb
  obtain rfl := origin_of_runOnFunction hf
  obtain rfl := origin_of_runOnFunction hg
  have hfor := hsound.externs _ _ _ h
  obtain ⟨table, htab⟩ := exists_getContextTable_of_handler hm h.handler hfor
  refine (h.corresponds_iff_run hm hpasses hfor hf hg hinit htab).mpr
    ⟨hsound.others _ _ _ h, fun e he v hv => ?_⟩
  obtain ⟨store, honly, hvalue⟩ := (hM.loads _ _ _ _ h.reached).mp hv
  exact hsound.stores _ _ _ h table ((tableOf_iff hm hcomp).mpr htab) e he store v honly hvalue

end Sound

end Run

end Module

section Pass

variable {M : Mem2Reg} {moduleOp : List ModuleFunc} (keepLastContext : Bool)
  (hids : (moduleOp.map ModuleFunc.id).Nodup) (hnames : NamesDefined moduleOp)
  (hacyclic : ∀ d, HandlerDependencyAnalysis.analyze moduleOp = .ok d → Acyclic d.graph)

include hids hnames hacyclic

/-- The pass succeeds where the pipeline does. -/
theorem exists_contextToArgument (hhandled : Handled moduleOp)
    (hpipeline : ∀ f ∈ moduleOp, ¬ f.isExtern → M.succeeds f.func [] ∧
      ∀ table, TableOf moduleOp f table → M.succeeds f.func table) :
    ∃ n out, contextToArgument M keepLastContext n moduleOp = some out := by
  obtain ⟨d, hd⟩ := exists_analyze hnames fun f hf =>
    answered_of_handled (hhandled.handled f (mem_of_mem_filter hf))
  obtain ⟨n, subGraphs, orders, hcomp, -, -⟩ :=
    exists_getConnectedComponents_covers (hacyclic d hd)
  have hm : Analyzed moduleOp d orders :=
    ⟨hids, hnames, hd, groups_of_getConnectedComponents (hacyclic d hd) hcomp⟩
  have hrun : ∀ f ∈ moduleOp, ∃ a,
      runOnFunction M keepLastContext moduleOp d orders f = some a := by
    intro f hf
    refine exists_runOnFunction hm hhandled hf fun hfor => ?_
    cases htab : getContextTable moduleOp orders f.id with
    | none => exact (hpipeline f hf hfor).1
    | some table => exact (hpipeline f hf hfor).2 table ((tableOf_iff hm hcomp).mpr htab)
  obtain ⟨out, hmap⟩ := exists_mapM_iff.mpr hrun
  exact ⟨n, out, contextToArgument_eq_some.mpr ⟨d, hd, _, hcomp, hmap⟩⟩

theorem corresponds_iff_sound (hM : M.Documented) (hpasses : PassesContext moduleOp) {n : Nat}
    {out : List ArgumentFunc} (hrun : contextToArgument M keepLastContext n moduleOp = some out) :
    Corresponds moduleOp out ↔ Sound moduleOp := by
  obtain ⟨d, hd, ⟨subGraphs, orders⟩, hcomp, hmap⟩ := contextToArgument_eq_some.mp hrun
  have hm : Analyzed moduleOp d orders :=
    ⟨hids, hnames, hd, groups_of_getConnectedComponents (hacyclic d hd) hcomp⟩
  exact ⟨sound_of_corresponds hm hM hpasses hcomp hmap,
    corresponds_of_sound hm hM hpasses hcomp hmap⟩

end Pass

/-- A promotion as it is documented, which fails on functions with branches and other types. -/
noncomputable def someMem2Reg : Mem2Reg where
  succeeds f table := f.blocks.length = 1 ∨ FieldsFit f table
  loads f op field := open Classical in
    if h : ∃ store, (∃ code, f.Before op code) ∧ OnlyStore f op field store then
      h.choose.operands[1]?
    else none

theorem reaching_ne_nil (field : String) (code : List Instr) : reaching field code ≠ [] := by
  suffices ∀ defs : List (Option PlainOp), defs ≠ [] → code.foldl (define field) defs ≠ [] from
    this _ (cons_ne_nil _ _)
  induction code with
  | nil => exact fun defs h => h
  | cons i code ih =>
    intro defs h
    refine ih _ ?_
    unfold define
    repeat' split
    all_goals first | exact cons_ne_nil _ _ | exact h

/-- At most one store alone reaches an operation. -/
theorem OnlyStore.unique {f : FuncOp} {op : PlainOp} {field : String} {store store' : PlainOp}
    (hreached : ∃ code, f.Before op code) (h : OnlyStore f op field store)
    (h' : OnlyStore f op field store') : store = store' := by
  obtain ⟨code, hcode⟩ := hreached
  obtain ⟨d, hd⟩ := exists_mem_of_ne_nil _ (reaching_ne_nil field code)
  exact Option.some.inj ((h code hcode d hd).symm.trans (h' code hcode d hd))

theorem documented_someMem2Reg : someMem2Reg.Documented where
  loads := by
    intro f op field v hreached
    by_cases h : ∃ store, (∃ code, f.Before op code) ∧ OnlyStore f op field store
    · have hloads : someMem2Reg.loads f op field = h.choose.operands[1]? := dif_pos h
      rw [hloads]
      constructor
      · exact fun hv => ⟨_, h.choose_spec.2, hv⟩
      · rintro ⟨store, honly, hv⟩
        rwa [h.choose_spec.2.unique hreached honly]
    · have hloads : someMem2Reg.loads f op field = none := dif_neg h
      rw [hloads]
      exact ⟨fun hv => (nomatch hv), fun ⟨store, honly, _⟩ => absurd ⟨store, hreached, honly⟩ h⟩
  succeeds := by
    intro f table hfit
    simp [someMem2Reg, hfit]

/-- A handler that stores a length of some width and sends an event. -/
def receiver (width : Nat) (isExtern : Bool) : ModuleFunc where
  id := 0
  func := ⟨"__handler_NET_RECV", [{
    args := [(0, .context)]
    ops := [.plain ⟨0, .contextRef "len", [0], [(1, .contextRef (.int 32))]⟩,
      .plain ⟨1, .constant "64", [], [(2, .int width)]⟩,
      .plain ⟨2, .store "len", [1, 2], []⟩,
      .plain ⟨3, .constant "", [], [(3, .atom)]⟩,
      .plain ⟨4, .init (.struct true [.atom, .context] "CHECK"), [3, 0],
        [(4, .struct true [.atom, .context] "CHECK")]⟩,
      .plain ⟨5, .ret, [4], []⟩]
    termId := 6
    term := .terminate }]⟩
  type := .handler
  isExtern
  event := some "NET_RECV"
  atom := none
  generationIndex := none
  instances := none

/-- The handler of the event reads the length. -/
def checker : ModuleFunc where
  id := 1
  func := ⟨"__handler_CHECK", [{
    args := [(0, .context)]
    ops := [.plain ⟨0, .contextRef "len", [0], [(1, .contextRef (.int 32))]⟩,
      .plain ⟨1, .load "len", [1], [(2, .int 32)]⟩]
    termId := 2
    term := .terminate }]⟩
  type := .handler
  isExtern := false
  event := some "CHECK"
  atom := none
  generationIndex := none
  instances := none

def receiveAndCheck (width : Nat) (isExtern : Bool) : List ModuleFunc :=
  [receiver width isExtern, checker]

section ReceiveAndCheck

variable {width : Nat} {isExtern : Bool}

/-- The event that the receiver returns. -/
def checkEvent : PlainOp :=
  ⟨4, .init (.struct true [.atom, .context] "CHECK"), [3, 0],
    [(4, .struct true [.atom, .context] "CHECK")]⟩

variable {f : ModuleFunc}
variable {op : PlainOp} {d : Dependencies}

theorem eventInits_receiveAndCheck (hf : f ∈ receiveAndCheck width isExtern)
    (hop : op ∈ f.func.eventInits) : f = receiver width isExtern ∧ op = checkEvent := by
  have hreceiver : (receiver width isExtern).func.eventInits = [checkEvent] := rfl
  have hchecker : checker.func.eventInits = [] := rfl
  rcases mem_pair.mp hf with rfl | rfl
  · rw [hreceiver] at hop
    exact ⟨rfl, mem_singleton.mp hop⟩
  · rw [hchecker] at hop
    cases hop

theorem lookupInit_checkEvent :
    lookupInit (receiveAndCheck width isExtern) (receiver width isExtern).func checkEvent =
      some checker := rfl

theorem emits_receiveAndCheck {g : ModuleFunc}
    (h : Emits (receiveAndCheck width isExtern) f op g) :
    f = receiver width isExtern ∧ op = checkEvent ∧ g = checker := by
  obtain ⟨rfl, rfl⟩ := eventInits_receiveAndCheck (mem_of_mem_filter h.handler)
    h.mem_eventInits
  exact ⟨rfl, rfl, (Option.some.inj (lookupInit_checkEvent.symm.trans h.target)).symm⟩

theorem ref_receiveAndCheck (hf : f ∈ receiveAndCheck width isExtern) {e : String × Ty}
    (he : e ∈ f.func.contextRefs) : e = ("len", .int 32) := by
  have hreceiver : (receiver width isExtern).func.contextRefs = [("len", .int 32)] := rfl
  have hchecker : checker.func.contextRefs = [("len", .int 32)] := rfl
  rcases mem_pair.mp hf with rfl | rfl
  · exact mem_singleton.mp (hreceiver ▸ he)
  · exact mem_singleton.mp (hchecker ▸ he)

theorem nodup_receiveAndCheck : ((receiveAndCheck width isExtern).map ModuleFunc.id).Nodup :=
  (by decide : [0, 1].Nodup)

theorem namesDefined_receiveAndCheck : NamesDefined (receiveAndCheck width isExtern) := by
  intro f hf
  rcases mem_pair.mp (mem_of_mem_filter hf) with rfl | rfl
  · exact ⟨rfl, rfl⟩
  · exact ⟨rfl, rfl⟩

theorem acyclic_receiveAndCheck
    (hd : HandlerDependencyAnalysis.analyze (receiveAndCheck width isExtern) = .ok d) :
    Acyclic d.graph := by
  refine acyclic_of_lt id fun e he b hb => ?_
  have hreceiver : edges (handlersOf (receiveAndCheck width isExtern)) (receiver width isExtern) =
    [1] := rfl
  have hchecker : edges (handlersOf (receiveAndCheck width isExtern)) checker = [] := rfl
  obtain ⟨f, hf, -, hid, hedges⟩ :=
    (find_analyze nodup_receiveAndCheck namesDefined_receiveAndCheck hd).mp
      (OrderedMap.find_eq_some_iff.mpr he)
  rw [hedges] at hb
  rcases mem_pair.mp (mem_of_mem_filter hf) with rfl | rfl
  · rw [hreceiver] at hb
    rw [← hid, mem_singleton.mp hb]
    exact Nat.zero_lt_one
  · rw [hchecker] at hb
    cases hb

theorem passesContext_receiveAndCheck : PassesContext (receiveAndCheck width isExtern) where
  handlers := by
    intro g hg _
    rcases mem_pair.mp (mem_of_mem_filter hg) with rfl | rfl
    · rfl
    · rfl
  events := by
    intro f op g h
    obtain ⟨rfl, rfl, rfl⟩ := emits_receiveAndCheck h
    exact ⟨3, [0], rfl, rfl, rfl⟩
  fields := by
    intro f hf e he
    rw [ref_receiveAndCheck hf he]
    decide

/-- The instructions in front of the event. -/
def beforeCheck (width : Nat) (isExtern : Bool) : List Instr :=
  ((receiver width isExtern).func.opsOf 0).take 4 |>.map .op

theorem before_checkEvent : (receiver width isExtern).func.Before checkEvent
    (beforeCheck width isExtern) :=
  ⟨[(0, [])], [.op (.plain ⟨5, .ret, [4], []⟩)], .stop rfl, rfl⟩

theorem emits_checkEvent :
    Emits (receiveAndCheck width isExtern) (receiver width isExtern) checkEvent checker where
  handler := mem_filter.mpr ⟨mem_cons_self, rfl⟩
  returned := ⟨⟨5, .ret, [4], []⟩, mem_singleton.mpr rfl, rfl⟩
  target := lookupInit_checkEvent
  inner := by decide
  reached := ⟨_, before_checkEvent⟩

theorem handled_receiveAndCheck : Handled (receiveAndCheck width isExtern) where
  handled := by
    intro f hf _ op hop
    obtain ⟨rfl, rfl⟩ := eventInits_receiveAndCheck hf hop
    rfl
  contexts := by
    intro f hf _ htype
    rcases mem_pair.mp hf with rfl | rfl <;> exact absurd rfl htype

/-- The store of the length. -/
def storeLen : PlainOp := ⟨2, .store "len", [1, 2], []⟩

theorem before_checkEvent_iff {code : List Instr} :
    (receiver width isExtern).func.Before checkEvent code ↔ code = beforeCheck width isExtern := by
  refine ⟨?_, fun h => h ▸ before_checkEvent⟩
  rintro ⟨w, rest, hw, hcode⟩
  cases hw with
  | go h hrest => cases h
  | stop h =>
    have hops : (receiver width isExtern).func.code [(0, [])] =
        beforeCheck width isExtern ++ [.op (.plain checkEvent),
          .op (.plain ⟨5, .ret, [4], []⟩)] := rfl
    have hnot : Instr.op (.plain checkEvent) ∉ beforeCheck width isExtern := by
      simp [beforeCheck, FuncOp.opsOf, receiver, checkEvent]
    exact ((append_cons_inj_of_notMem hnot (by simp [checkEvent])).mp
      (hops.symm.trans hcode)).1.symm

theorem onlyStore_checkEvent {store : PlainOp} :
    OnlyStore (receiver width isExtern).func checkEvent "len" store ↔ store = storeLen := by
  have hreaching : reaching "len" (beforeCheck width isExtern) = [some storeLen] := rfl
  constructor
  · intro h
    exact (Option.some.inj (h _ before_checkEvent _ (hreaching ▸ mem_cons_self))).symm
  · rintro rfl code hcode d hd
    rw [before_checkEvent_iff.mp hcode, hreaching] at hd
    exact mem_singleton.mp hd

end ReceiveAndCheck

/-- The pass succeeds on the two handlers, and what is sent right is sound. -/
theorem exists_run_receiveAndCheck (width : Nat) (isExtern : Bool) : ∃ n out,
    contextToArgument someMem2Reg false n (receiveAndCheck width isExtern) = some out ∧
      (Corresponds (receiveAndCheck width isExtern) out →
        Sound (receiveAndCheck width isExtern)) := by
  have hblocks : ∀ f ∈ receiveAndCheck width isExtern, ∀ table,
      someMem2Reg.succeeds f.func table := by
    intro f hf table
    rcases mem_pair.mp hf with rfl | rfl
    · simp [someMem2Reg, receiver]
    · simp [someMem2Reg, checker]
  obtain ⟨n, out, hrun⟩ := exists_contextToArgument false nodup_receiveAndCheck
    namesDefined_receiveAndCheck (fun d => acyclic_receiveAndCheck) handled_receiveAndCheck
    fun f hf _ => ⟨hblocks f hf [], fun table _ => hblocks f hf table⟩
  exact ⟨n, out, hrun, (corresponds_iff_sound false nodup_receiveAndCheck
    namesDefined_receiveAndCheck (fun d => acyclic_receiveAndCheck) documented_someMem2Reg
    passesContext_receiveAndCheck hrun).mp⟩

end Alkali.ContextToArgument
