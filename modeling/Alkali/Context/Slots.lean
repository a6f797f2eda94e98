import Alkali.Context.Restore
import Alkali.Lowering.Sends

/-!
# Loads and stores of arguments

A stage whose arguments are in the context runs like the stage that gets them as
arguments: each of its values is equal, with the loaded values in place of the removed
arguments. The context keeps the operands of the event for the next stage.
-/

namespace Alkali

open List Function Operation

variable {Val : Type} [Inhabited Val] [DecidableEq Val] {I : Interp Val} {obs : OpKind → Bool}

section RenamedOn

variable {σ : Value → Value} {D : Value → Prop} {C : Cell → Prop} {s t : State Val}

/-- The values in `D` are those of the values they are replaced by in another state, and
the cells in `C` are the same. -/
structure RenamedOn (σ : Value → Value) (D : Value → Prop) (C : Cell → Prop) (s t : State Val) :
    Prop where
  env : ∀ v, D v → t.env (σ v) = s.env v
  cells : ∀ c, C c → t.cells c = s.cells c

/-- The values are not replaced and take the place of no value in `D`. -/
def UntouchedOn (σ : Value → Value) (D : Value → Prop) (vs : List Value) : Prop :=
  ∀ v ∈ vs, ∀ u, D u → (σ u = v ↔ u = v)

theorem RenamedOn.instr (h : RenamedOn σ D C s t) {x : Instr} (hx : ∀ v ∈ x.uses, D v)
    (hcells : ∀ o, x = .op o → ∀ c, o.inner.kind.reads = some c → C c)
    (hbinds : UntouchedOn σ D x.binds) {s' : State Val} (hs : x.step I obs s = some s') :
    ∃ t', (x.rename σ).step I obs t = some t' ∧ RenamedOn σ D C s' t' := by
  refine Fallible.exists_of_rel (Instr.step_rename h (fun v hv => h.env v (hx v hv))
    (fun o ho c hc => h.cells c (hcells o ho c hc)) fun outs _ _ hw => ?_) hs
  exact ⟨fun v hv => setResults_rename (h.env v hv) (fun r hr => hbinds r hr v hv) outs,
    fun c hc => hw c (h.cells c hc)⟩

end RenamedOn

/-- A place of the context that is used for arguments. -/
def IsSlot (c : Cell) : Prop := ∃ k, c = .context (ContextIdentification.contextName k)

/-- The function leaves the places for arguments alone. -/
def FuncOp.KeepsSlots (f : FuncOp) : Prop :=
  ∀ o ∈ f.operations, ∀ c, IsSlot c → ¬ o.accesses c

/-- The reference to a field of a context. -/
def contextRef (I : Interp Val) (a : String) (c : Val) : Val :=
  (I.eval (.contextRef a) [c]).getD 0 default

namespace NamedStage

variable {s : NamedStage} {c : Val} {ev : Value} {T : Cell → Val → Val} {S τ : State Val}

/-- The states of a stage before and after its arguments are moved to the context `c`.
The event of the stage, `ev`, is another one; `T` is what the context holds. -/
structure Sim (s : NamedStage) (I : Interp Val) (c : Val) (ev : Value) (T : Cell → Val → Val)
    (S τ : State Val) : Prop where
  renamed : RenamedOn s.subst (fun v => v < s.ctx ∧ v ≠ ev) (fun c => ¬ IsSlot c) S τ
  ctx : τ.env s.ctx = c
  refs : ∀ r ∈ s.contextArgs, τ.env r.ref = contextRef I r.name c
  slots : ∀ c, IsSlot c → τ.cells c = T c

/-- What the argument uses of an instruction of a stage that is not the event. -/
structure Regular (s : NamedStage) (ev : Value) (x : Instr) : Prop where
  uses : ∀ v ∈ x.uses, v < s.ctx
  event : ev ∈ x.uses → ∃ op, x = .op (.plain op) ∧ op.kind = .ret ∧ op.results = []
  binds : ∀ v ∈ x.binds, v < s.ctx ∧ v ∉ s.contextArgs.map ContextArg.arg
  slots : ∀ o, x = .op o → ∀ c, IsSlot c → ¬ o.accesses c
  other : ∀ op, x = .op (.plain op) → s.initNames op = none

variable {x : Instr} {v n : Value}

theorem Regular.untouched (h : Regular s ev x) {D : Value → Prop} :
    UntouchedOn s.subst D x.binds := by
  intro v hv u _
  obtain ⟨hlt, harg⟩ := h.binds v hv
  constructor
  · intro heq
    by_contra hne
    exact subst_ne hlt.le hne heq
  · rintro rfl
    exact subst_of_not_mem harg

/-- A new value does not change. -/
theorem Regular.env (h : Regular s ev x) {τ' : State Val}
    (hstep : (x.rename s.subst).step I obs τ = some τ') (hv : s.ctx ≤ v) : τ'.env v = τ.env v := by
  refine Instr.step_env_of_not_mem (fun hmem => ?_) hstep
  have hbinds : (x.rename s.subst).binds = x.binds := by
    cases x with
    | op o => exact binds_rename _ o
    | bind => rfl
    | test => rfl
  exact absurd (h.binds v (hbinds ▸ hmem)).1 (not_lt.mpr hv)

variable {S' : State Val} {inputs : List Val}

theorem Sim.instr (h : Sim s I c ev T S τ) (hx : Regular s ev x)
    (hS : x.step I silent S = some S') :
    ∃ τ', (x.rename s.subst).step I silent τ = some τ' ∧ Sim s I c ev T S' τ' := by
  by_cases hev : ev ∈ x.uses
  · -- a return changes nothing
    obtain ⟨op, rfl, hkind, hres⟩ := hx.event hev
    cases hS
    have hkind' : (op.rename s.subst).kind = .ret := hkind
    have hret : (op.rename s.subst).step I silent τ = τ := PlainOp.step_of_ret hkind' hres τ
    have hsame : (plain op).step I silent S = S := PlainOp.step_of_ret hkind hres S
    exact ⟨τ, congrArg some hret, by rwa [hsame]⟩
  · have hcells : ∀ o, x = .op o → ∀ c, o.inner.kind.reads = some c → ¬ IsSlot c :=
      fun o ho c hc hslot => hx.slots o ho c hslot (Or.inl hc)
    obtain ⟨τ', hτ', hren⟩ := h.renamed.instr
      (fun v hv => ⟨hx.uses v hv, fun heq => hev (heq ▸ hv)⟩) hcells hx.untouched hS
    have henv : ∀ v, s.ctx ≤ v → τ'.env v = τ.env v := fun v hv => hx.env hτ' hv
    refine ⟨τ', hτ', hren, (henv _ le_rfl).trans h.ctx, fun r hr => ?_, fun c hc => ?_⟩
    · rw [henv _ (mem_contextArgs hr).1.le, h.refs r hr]
    · rw [← h.slots c hc]
      have hexec : execInstrs I silent [x.rename s.subst] τ = some τ' := by
        rw [execInstrs_cons, hτ']
        rfl
      refine execInstrs_cells_of_ne hexec fun q hq => ?_
      rw [mem_singleton] at hq
      cases x with
      | op o =>
        obtain rfl := Instr.op.inj hq
        rw [kind_rename]
        exact fun hw => hx.slots o rfl c hc (Or.inr hw)
      | bind => cases hq
      | test => cases hq

/-- Away from the event the rewritten code does the same. -/
theorem Sim.instrs {xs ys : List Instr} (hexp : Expands s xs ys) (h : Sim s I c ev T S τ)
    (hxs : ∀ x ∈ xs, Regular s ev x) (hS : execInstrs I silent xs S = some S') :
    ∃ τ', execInstrs I silent ys τ = some τ' ∧ Sim s I c ev T S' τ' := by
  induction hexp generalizing S τ with
  | nil =>
    cases hS
    exact ⟨τ, rfl, h⟩
  | @op n o xs ys hn _ ih =>
    have ho := hxs (.op o) mem_cons_self
    have hrewrite : s.rewriteOp n o = [o.rename s.subst] := by
      cases o with
      | guard => rfl
      | plain op =>
        rw [rewriteOp, ho.other op rfl]
        rfl
    obtain ⟨S₁, hS₁, hS⟩ := Option.bind_eq_some_iff.mp hS
    obtain ⟨τ₁, hτ₁, h₁⟩ := h.instr ho hS₁
    obtain ⟨τ', hτ', h'⟩ := ih h₁ (fun x hx => hxs x (mem_cons_of_mem _ hx)) hS
    refine ⟨τ', ?_, h'⟩
    rw [hrewrite]
    exact Option.bind_eq_some_iff.mpr ⟨τ₁, hτ₁, hτ'⟩
  | @other x xs ys hx _ ih =>
    obtain ⟨S₁, hS₁, hS⟩ := Option.bind_eq_some_iff.mp hS
    obtain ⟨τ₁, hτ₁, h₁⟩ := h.instr (hxs x mem_cons_self) hS₁
    obtain ⟨τ', hτ', h'⟩ := ih h₁ (fun x hx => hxs x (mem_cons_of_mem _ hx)) hS
    exact ⟨τ', Option.bind_eq_some_iff.mpr ⟨τ₁, hτ₁, hτ'⟩, h'⟩

/-! ## The start of a stage -/

theorem step_bind (id : OpId) {k : OpKind} (hk : k.writes = none) (v n : Value) (ty : Ty)
    (τ : State Val) :
    (plain ⟨id, k, [v], [(n, ty)]⟩).step I silent τ = { τ with
        env := update τ.env n ((k.outputs I [τ.env v] τ.cells).getD 0 default) } := by
  refine State.ext (funext fun u => ?_) ?_ (append_nil _)
  · by_cases hu : u = n
    · subst hu
      simp [step, PlainOp.step, setResults]
    · simp [step, PlainOp.step, setResults, hu]
  · simp [step, PlainOp.step, OpKind.write, hk]

theorem step_store (id : OpId) (a : String) (r v : Value) (τ : State Val) :
    (plain ⟨id, .store a, [r, v], []⟩).step I silent τ = { τ with
        cells := update τ.cells (.context a)
          (update (τ.cells (.context a)) (τ.env r) (τ.env v)) } := by
  refine State.ext ?_ rfl (append_nil _)
  exact setResults_nil ((OpKind.store a).outputs I ([r, v].map τ.env) τ.cells) τ.env

/-- Operations that bind one value each, which none of them uses. -/
theorem exec_binds {rs : List ContextArg} {o : ContextArg → Operation}
    {dest src : ContextArg → Value} {g : ContextArg → Val → Val} {τ : State Val}
    (hop : ∀ r σ, σ.cells = τ.cells → (o r).step I silent σ =
      { σ with env := update σ.env (dest r) (g r (σ.env (src r))) })
    (hsrc : ∀ r ∈ rs, ∀ r' ∈ rs, dest r ≠ src r')
    (hpair : rs.Pairwise fun r r' => dest r ≠ dest r') :
    let τ' := exec I silent (rs.map o) τ
    (∀ r ∈ rs, τ'.env (dest r) = g r (τ.env (src r))) ∧
      (∀ v, (∀ r ∈ rs, dest r ≠ v) → τ'.env v = τ.env v) ∧ τ'.cells = τ.cells := by
  induction rs generalizing τ with
  | nil => exact ⟨fun _ h => (by cases h), fun _ _ => rfl, rfl⟩
  | cons r rs ih =>
    obtain ⟨hr, hpair⟩ := pairwise_cons.mp hpair
    rw [map_cons, exec_cons, hop r τ rfl]
    obtain ⟨hdests, hoth, hcells⟩ := ih
      (τ := { τ with env := update τ.env (dest r) (g r (τ.env (src r))) }) hop
      (fun r' hr' r'' hr'' => hsrc r' (mem_cons_of_mem _ hr') r'' (mem_cons_of_mem _ hr'')) hpair
    refine ⟨fun r' hr' => ?_, fun v hv => ?_, hcells⟩
    · rcases mem_cons.mp hr' with rfl | hr'
      · exact (hoth _ fun r'' hr'' => (hr r'' hr'').symm).trans (update_self _ _ _)
      · refine (hdests r' hr').trans (congrArg _ (update_of_ne ?_ _ _))
        exact (hsrc r mem_cons_self r' (mem_cons_of_mem _ hr')).symm
    · refine (hoth v fun r' hr' => hv r' (mem_cons_of_mem _ hr')).trans ?_
      exact update_of_ne (hv r mem_cons_self).symm _ _

/-- The references and the loaded values of a stage at its start. -/
theorem exec_prelude (τ : State Val) : let τ' := exec I silent s.prelude τ
    (∀ r ∈ s.contextArgs, τ'.env r.ref = contextRef I r.name (τ.env s.ctx) ∧
        τ'.env r.load = τ.cells (.context r.name) (contextRef I r.name (τ.env s.ctx))) ∧
      (∀ v ≤ s.ctx, τ'.env v = τ.env v) ∧ τ'.cells = τ.cells := by
  have hpair : s.contextArgs.Pairwise fun r r' => r.load < r'.ref :=
    contextArgs_pairwise.imp And.right
  have hload : ∀ r ∈ s.contextArgs, s.ctx < r.ref ∧ r.load = r.ref + 1 := fun r hr =>
    ⟨(mem_contextArgs hr).1, (mem_contextArgs hr).2.1⟩
  have hne : ∀ r ∈ s.contextArgs, ∀ r' ∈ s.contextArgs, r.load ≠ r'.ref :=
    fun r hr r' hr' => load_ne_ref hr hr'
  obtain ⟨hrefs, hoth, hcells⟩ := exec_binds (I := I) (τ := τ) (o := s.refOp)
    (g := fun r => contextRef I r.name) (fun _ σ _ => step_bind _ rfl _ _ _ σ)
    (fun r hr _ _ => (hload r hr).1.ne')
    (hpair.imp_of_mem fun {r r'} hr _ hlt => by have := (hload r hr).2; lia)
  obtain ⟨hloads, hoth', hcells'⟩ := exec_binds (I := I) (o := s.loadOp)
    (g := fun r => τ.cells (.context r.name))
    (fun r σ hσ => hcells ▸ hσ ▸ step_bind _ rfl _ _ _ σ) hne
    (hpair.imp_of_mem fun {r r'} _ hr' hlt => by have := (hload r' hr').2; lia)
  rw [prelude, exec_append]
  refine ⟨fun r hr => ⟨?_, ?_⟩, fun v hv => ?_, hcells'.trans hcells⟩
  · rw [hoth' _ fun r' hr' => hne r' hr' r hr, hrefs r hr]
  · rw [hloads r hr, hrefs r hr]
  · rw [hoth' v fun r hr => by have := hload r hr; lia,
      hoth v fun r hr => by have := hload r hr; lia]

omit [DecidableEq Val] in
theorem env_initialState (args : List Value) (inputs : List Val) (cells : Cell → Val → Val) :
    (initialState args inputs cells).env = setResults args inputs fun _ => default := rfl

omit [DecidableEq Val] in
theorem setResults_of_getElem? {vs : List Value} {outs : List Val} {env : Value → Val} {i : Nat}
    {x : Val} (hnd : vs.Nodup) (hv : vs[i]? = some v) (hx : outs[i]? = some x) :
    setResults vs outs env v = x := by
  obtain ⟨hi, rfl⟩ := List.getElem?_eq_some_iff.mp hv
  rw [setResults, if_pos (getElem_mem hi), hnd.idxOf_getElem, getD_eq_getElem?_getD,
    hx, Option.getD_some]

/-- The context holds the arguments that are removed. -/
def Holds (s : NamedStage) (I : Interp Val) (c : Val) (inputs : List Val)
    (cells : Cell → Val → Val) : Prop :=
  ∀ i a x, s.argNames i = some a → inputs[i]? = some x → cells (.context a) (contextRef I a c) = x

omit [DecidableEq Val] in
/-- What a removed argument was, is in the context. -/
theorem Holds.arg {cells cells' : Cell → Val → Val} (h : s.Holds I c inputs cells')
    (hnd : (s.func.args.map Prod.fst).Nodup) (hlen : s.func.args.length = inputs.length)
    {r : ContextArg} (hr : r ∈ s.contextArgs) :
    cells' (.context r.name) (contextRef I r.name c) =
      (initialState (s.func.args.map Prod.fst) inputs cells).env r.arg := by
  obtain ⟨-, -, -, i, hi, hname⟩ := mem_contextArgs hr
  have hlt : i < inputs.length := hlen ▸ (List.getElem?_eq_some_iff.mp hi).1
  have hx : inputs[i]? = some inputs[i] := getElem?_eq_getElem hlt
  have harg : (s.func.args.map Prod.fst)[i]? = some r.arg := by
    rw [getElem?_map, hi, Option.map_some]
  rw [h i r.name _ hname hx, env_initialState, setResults_of_getElem? hnd harg hx]

/-- A stage starts with its arguments in place. -/
theorem Sim.start (hdist : ContextIdentification.Distinct s.func.args.length s.argNames)
    (hnd : (s.func.args.map Prod.fst).Nodup) (hlen : s.func.args.length = inputs.length)
    {cells cells' : Cell → Val → Val} (hcells : ∀ c, ¬ IsSlot c → cells' c = cells c)
    (hholds : s.Holds I c inputs cells') (ev : Value) :
    Sim s I c ev cells' (initialState (s.func.args.map Prod.fst) inputs cells)
      (exec I silent s.prelude (initialState (s.newArgs.map Prod.fst)
        (c :: unnamed s.argNames 0 inputs) cells')) := by
  generalize hτ : initialState (s.newArgs.map Prod.fst) (c :: unnamed s.argNames 0 inputs)
    cells' = τ
  have hτcells : τ.cells = cells' := by rw [← hτ]; rfl
  -- the new arguments
  have henv : ∀ v, τ.env v = if v = s.ctx then c else
      setResults (unnamed s.argNames 0 (s.func.args.map Prod.fst)) (unnamed s.argNames 0 inputs)
        (fun _ => default) v := by
    intro v
    rw [← hτ, newArgs, keptArgs_eq hdist hnd, map_cons, map_unnamed, env_initialState]
    exact setResults_cons s.ctx _ c _ _ v
  obtain ⟨hrefs, hoth, hsame⟩ := exec_prelude (I := I) (s := s) τ
  have hctx : τ.env s.ctx = c := by rw [henv, if_pos rfl]
  rw [hctx] at hrefs
  refine ⟨⟨fun v hv => ?_, fun k hk => ?_⟩, ?_, fun r hr => (hrefs r hr).1, fun k _ => ?_⟩
  · rcases subst_eq (s := s) v with ⟨hno, heq⟩ | ⟨r, hr, rfl, heq⟩
    · rw [heq, hoth v hv.1.le, henv, if_neg hv.1.ne]
      by_cases hmem : v ∈ s.func.args.map Prod.fst
      · refine setResults_unnamed (by simpa using hlen) hnd ?_
        rw [← map_unnamed, ← keptArgs_eq hdist hnd]
        obtain ⟨arg, harg, rfl⟩ := mem_map.mp hmem
        exact mem_map_of_mem (mem_filter.mpr ⟨harg, by simpa using hno⟩)
      · rw [setResults_of_not_mem fun h => hmem ((unnamed_sublist _ _).subset h), env_initialState,
          setResults_of_not_mem hmem]
    · rw [heq, (hrefs r hr).2, hτcells, hholds.arg hnd hlen hr]
  · rw [hsame, hτcells, hcells k hk]
    rfl
  · rw [hoth _ le_rfl, hctx]
  · rw [hsame, hτcells]

/-! ## The event of a stage -/

section

variable (h : Sim s I c ev T S τ)
include h

omit [DecidableEq Val] in
/-- New values do not matter. -/
theorem Sim.update (hn : s.firstFree ≤ n) (x : Val) :
    Sim s I c ev T S { τ with env := update τ.env n x } := by
  have hkeep : ∀ v < s.firstFree, Function.update τ.env n x v = τ.env v := fun v hv =>
    update_of_ne (hv.trans_le hn).ne _ _
  have hctx : s.ctx < s.firstFree := by
    rw [firstFree]
    lia
  refine ⟨⟨fun v hv => ?_, h.renamed.cells⟩, ?_, fun r hr => ?_, h.slots⟩
  · exact (hkeep _ (subst_lt_firstFree hv.1)).trans (h.renamed.env v hv)
  · exact (hkeep _ hctx).trans h.ctx
  · obtain ⟨-, hload, hlt, -⟩ := mem_contextArgs hr
    exact (hkeep _ (by lia)).trans (h.refs r hr)

variable {a : String} {names : List String}

theorem Sim.write (ha : IsSlot (.context a)) (key x : Val) :
    Sim s I c ev (Function.update T (.context a) (Function.update (T (.context a)) key x)) S
      { τ with
        cells := Function.update τ.cells (.context a)
          (Function.update (τ.cells (.context a)) key x) } := by
  refine ⟨⟨h.renamed.env, fun k hk => ?_⟩, h.ctx, h.refs, fun k hk => ?_⟩
  · refine (update_of_ne ?_ _ _).trans (h.renamed.cells k hk)
    rintro rfl
    exact hk ha
  · by_cases hka : k = .context a
    · subst hka
      simp only [update_self, h.slots _ ha]
    · exact (update_of_ne hka _ _).trans
        ((h.slots k hk).trans (update_of_ne hka _ _).symm)

/-- The store for an operand puts it in its place, unless it is there. -/
theorem Sim.storeOp (hn : s.firstFree ≤ n) (hv : v < s.ctx ∧ v ≠ ev) (ha : a ≠ "")
    (hslot : IsSlot (.context a)) (hheld : ∀ r ∈ s.contextArgs, r.name = a → r.arg = v →
      T (.context a) (contextRef I a c) = S.env v) :
    ∃ T', Sim s I c ev T' S (exec I silent (s.storeOp n v a) τ) ∧
      (∀ b, b ≠ a → T' (.context b) = T (.context b)) ∧
      T' (.context a) (contextRef I a c) = S.env v := by
  have hother : ∀ x b, b ≠ a → Function.update T (.context a)
      (Function.update (T (.context a)) (contextRef I a c) x) (.context b) = T (.context b) :=
    fun x b hb => update_of_ne (fun h => hb (Cell.context.inj h)) _ _
  rw [NamedStage.storeOp, if_neg ha]
  cases hfind : s.contextArgs.find? fun r => r.name = a with
  | some r =>
    have hr := mem_of_find?_eq_some hfind
    have hname : r.name = a := by simpa using find?_some hfind
    simp only
    split_ifs with harg
    · exact ⟨T, h, fun _ _ => rfl, hheld r hr hname harg.symm⟩
    · rw [exec_cons, step_store, exec_nil, h.refs r hr, h.renamed.env v hv, hname]
      exact ⟨_, h.write hslot _ _, hother _, by simp⟩
  | none =>
    have hstep : ∀ id ty, (plain ⟨id, .contextRef a, [s.ctx], [(n, ty)]⟩).step I silent τ =
        { τ with env := Function.update τ.env n (contextRef I a (τ.env s.ctx)) } :=
      fun id ty => step_bind id rfl s.ctx n ty τ
    have h' := h.update hn (contextRef I a (τ.env s.ctx))
    rw [exec_cons, hstep, exec_cons, step_store, exec_nil, h'.renamed.env v hv]
    simp only [update_self, h.ctx] at h' ⊢
    exact ⟨_, h'.write hslot _ _, hother _, by simp⟩

/-- The stores for the operands of an event. -/
theorem Sim.storeOps {vs : List Value} (hn : s.firstFree ≤ n) (hvs : ∀ v ∈ vs, v < s.ctx ∧ v ≠ ev)
    (hslots : ∀ a ∈ names, a ≠ "" → IsSlot (.context a))
    (hnms : names.Pairwise fun a b => a ≠ "" → a ≠ b)
    (hheld : ∀ p ∈ vs.zip names, ∀ r ∈ s.contextArgs, r.name = p.2 → r.arg = p.1 →
      T (.context p.2) (contextRef I p.2 c) = S.env p.1) :
    ∃ T', Sim s I c ev T' S (exec I silent (s.storeOps n vs names) τ) ∧
      (∀ b, b ∉ names → T' (.context b) = T (.context b)) ∧
      ∀ p ∈ vs.zip names, p.2 ≠ "" → T' (.context p.2) (contextRef I p.2 c) = S.env p.1 := by
  induction vs generalizing names n T τ with
  | nil =>
    exact ⟨T, h, fun _ _ => rfl, fun p hp => by simp at hp⟩
  | cons v vs ih =>
    cases names with
    | nil => exact ⟨T, h, fun _ _ => rfl, fun p hp => by simp at hp⟩
    | cons a names =>
      obtain ⟨hfresh, hnms⟩ := pairwise_cons.mp hnms
      rw [NamedStage.storeOps, exec_append]
      have hone : ∃ T₁, Sim s I c ev T₁ S (exec I silent (s.storeOp n v a) τ) ∧
          (∀ b, b ≠ a ∨ a = "" → T₁ (.context b) = T (.context b)) ∧
          (a ≠ "" → T₁ (.context a) (contextRef I a c) = S.env v) := by
        by_cases ha : a = ""
        · rw [NamedStage.storeOp, if_pos ha]
          exact ⟨T, h, fun _ _ => rfl, fun hne => absurd ha hne⟩
        · obtain ⟨T₁, h₁, hother, hheld₁⟩ := h.storeOp hn (hvs v mem_cons_self) ha
            (hslots a mem_cons_self ha) fun r hr hname harg =>
              hheld (v, a) mem_cons_self r hr hname harg
          exact ⟨T₁, h₁, fun b hb => hother b (hb.resolve_right ha), fun _ => hheld₁⟩
      obtain ⟨T₁, h₁, hother, hheld₁⟩ := hone
      -- later operands have other names
      have hlater : ∀ b ∈ names, b ≠ a ∨ a = "" := by
        intro b hb
        by_cases ha : a = ""
        · exact Or.inr ha
        · exact Or.inl (hfresh b hb ha).symm
      obtain ⟨T', h', hoth, hstored⟩ := ih h₁ (hn.trans (Nat.le_succ n))
        (fun u hu => hvs u (mem_cons_of_mem _ hu))
        (fun b hb => hslots b (mem_cons_of_mem _ hb)) hnms fun p hp r hr hname harg => by
          rw [hother p.2 (hlater p.2 (of_mem_zip hp).2)]
          exact hheld p (mem_cons_of_mem _ hp) r hr hname harg
      refine ⟨T', h', fun b hb => ?_, fun p hp hne => ?_⟩
      · rw [hoth b fun hmem => hb (mem_cons_of_mem _ hmem)]
        exact hother b (Or.inl fun heq => hb (heq ▸ mem_cons_self))
      · rw [zip_cons_cons] at hp
        rcases mem_cons.mp hp with rfl | hp
        · rw [hoth a fun hmem => hfresh a hmem hne rfl]
          exact hheld₁ hne
        · exact hstored p hp hne

/-- The event itself is another value. -/
theorem Sim.newInit {op : PlainOp} {ty ty' : Ty} (hkind : op.kind = .init ty)
    (hres : op.results = [(ev, ty')]) (hev : ev < s.ctx) :
    Sim s I c ev T (op.step I silent S) ((s.newInit op names).step I silent τ) := by
  have hbind : ((s.newInit op names).results.map Prod.fst) = [ev] := by
    simp [NamedStage.newInit, hres]
  have henv : ∀ v, v ≠ ev → ((s.newInit op names).step I silent τ).env v = τ.env v := by
    intro v hv
    rw [PlainOp.step_env, hbind]
    exact setResults_of_not_mem (by simpa using hv)
  have hcells : ((s.newInit op names).step I silent τ).cells = τ.cells := rfl
  have hS : ∀ v, v ≠ ev → (op.step I silent S).env v = S.env v := by
    intro v hv
    rw [PlainOp.step_env, hres]
    exact setResults_of_not_mem (by simpa using hv)
  have hScells : (op.step I silent S).cells = S.cells := by
    rw [PlainOp.step_cells, hkind]
    rfl
  refine ⟨⟨fun v hv => ?_, fun k hk => ?_⟩, ?_, fun r hr => ?_, fun k hk => ?_⟩
  · rw [henv _ (subst_ne hev.le hv.2), hS v hv.2, h.renamed.env v hv]
  · rw [hcells, hScells, h.renamed.cells k hk]
  · rw [henv _ hev.ne', h.ctx]
  · rw [henv _ (hev.trans (mem_contextArgs hr).1).ne', h.refs r hr]
  · rw [hcells, h.slots k hk]

end

end NamedStage

end Alkali
