import Alkali.Context.Slots

/-!
# The event for the next stage

A stage whose arguments are in the context sends the same values to the next stage as
before, the named ones in the context, provided that the names of the arguments of the
next stage are distinct.
-/

namespace Alkali

open List ContextIdentification FuncOp Operation

open ContextIdentification (Names Distinct)

/-- The event that a stage sends to the next one: the atom and a value for each argument.
It is only returned. -/
structure Feeds (f next : FuncOp) (feed : PlainOp) : Prop where
  mem : .plain feed ∈ f.operations
  targets : targets f next feed
  unique : ∀ op, .plain op ∈ f.operations → ContextIdentification.targets f next op → op = feed
  result : ∃ v ty, feed.results = [(v, ty)]
  returned : f.OnlyReturned (feed.results.map Prod.fst)
  operands : ∃ a vs, feed.operands = a :: vs ∧ f.typeOf a = some .atom ∧
    vs.map f.typeOf = next.args.map fun arg => some arg.2

section Runs

variable {Val : Type} [Inhabited Val] [DecidableEq Val]

/-- A run of a stage that sends an event with the values `outs`. -/
def FuncOp.Delivers (f : FuncOp) (I : Interp Val) (feed : PlainOp) (inputs : List Val)
    (cells : Cell → Val → Val) (outs : List Val) (cells' : Cell → Val → Val) : Prop :=
  ∃ w pre post S S', f.Walk 0 w ∧ f.code w = pre ++ .op (.plain feed) :: post ∧
    execInstrs I silent pre (initialState (f.argsOf 0) inputs cells) = some S ∧
    execInstrs I silent (.op (.plain feed) :: post) S = some S' ∧
    outs = feed.operands.map S.env ∧ cells' = S'.cells

/-- The values of the arguments of a stage. -/
def FuncOp.received (f : FuncOp) (inputs : List Val) (cells : Cell → Val → Val) : List Val :=
  f.args.map fun arg => (initialState (f.args.map Prod.fst) inputs cells).env arg.1

/-- The values that a stage uses in place of its original arguments. -/
def NamedStage.observed (s : NamedStage) (I : Interp Val) (inputs : List Val)
    (cells : Cell → Val → Val) : List Val :=
  s.func.args.map fun arg => (exec I silent s.prelude
    (initialState (s.newArgs.map Prod.fst) inputs cells)).env (s.subst arg.1)

end Runs

/-- The event of a stage after `restoreContext`. -/
def NamedStage.restoredFeed (s : NamedStage) (feed : PlainOp) : PlainOp :=
  match s.initNames feed with
  | some names => s.newInit feed names
  | none => feed.rename s.subst

/-- The event of a stage has an operand for each parameter of the next one, of the same
type and in the same order. -/
def NamedStage.Matches (s next : NamedStage) (feed : PlainOp) : Prop :=
  (s.restoredFeed feed).operands.length = next.newArgs.length + 1 ∧
    ∃ event, (s.restoredFeed feed).kind =
      .init (.struct true (.atom :: next.newArgs.map Prod.snd) event)

/-! ## The names of the next stage -/

namespace NamedStage

variable {s : NamedStage} {next : FuncOp} {names : Names} {feed : PlainOp}

theorem keptOperands_range (hemp : ∀ p, names p ≠ some "") (j : Nat) (vs : List Value) :
    keptOperands vs ((List.range' j vs.length).map fun p => (names p).getD "") =
      unnamed names j vs := by
  induction vs generalizing j with
  | nil => rfl
  | cons v vs ih =>
    rw [keptOperands, length_cons, range'_succ, map_cons, zip_cons_cons, unnamed]
    cases hname : names j with
    | none =>
      exact congrArg (List.cons v) (ih (j + 1))
    | some a =>
      have ha : a ≠ "" := fun h => hemp j (h ▸ hname)
      rw [filterMap_cons_none (by simp [ha])]
      exact ih (j + 1)

/-- The attribute of the event for the next stage. -/
def feedNames (names : Names) (n : Nat) : List String :=
  "" :: (List.range n).map fun p => (names p).getD ""

variable {a : Value} {vs : List Value}

theorem initNames_feed (hfeeds : Feeds s.func next feed) (hops : feed.operands = a :: vs) :
    ContextIdentification.initNames s.func next names feed = some (feedNames names vs.length) := by
  rw [ContextIdentification.initNames, if_pos hfeeds.targets, hops]
  rfl

theorem newOperands_feed (hemp : ∀ p, names p ≠ some "") (hatom : s.func.typeOf a = some .atom) :
    s.newOperands (a :: vs) (feedNames names vs.length) = a :: s.ctx :: unnamed names 0 vs := by
  have hkept : keptOperands (a :: vs) (feedNames names vs.length) = a :: unnamed names 0 vs := by
    rw [← keptOperands_range hemp, ← range_eq_range']
    rfl
  rw [newOperands, hkept]
  simp [hatom]

theorem pairwise_feedNames {n : Nat} (hdist : Distinct n names) :
    (feedNames names n).Pairwise fun a b => a ≠ "" → a ≠ b := by
  refine .cons (fun b _ hne => absurd rfl hne) ?_
  rw [pairwise_map]
  refine pairwise_lt_range.imp_of_mem fun {p q} hp hq hlt hne heq => ?_
  obtain ⟨a, ha⟩ : ∃ a, names p = some a := by
    cases hp : names p with
    | none => simp [hp] at hne
    | some a => exact ⟨a, rfl⟩
  have hb : names q = some a := by
    cases hq : names q with
    | none => simp [ha, hq] at heq hne; exact absurd heq hne
    | some b => simpa [ha, hq] using heq.symm
  exact hlt.ne (hdist p (mem_range.mp hp) q (mem_range.mp hq) a ha hb)

theorem kind_of_targets {f : FuncOp} {op : PlainOp} (h : targets f next op) :
    ∃ tys event, op.kind = .init (.struct true tys event) := by
  unfold targets at h
  split at h
  · exact ⟨_, _, by assumption⟩
  · cases h

theorem lt_ctx_of_mem_args {arg : Value × Ty} (h : arg ∈ s.func.args) : arg.1 < s.ctx := by
  refine lt_nextValue (mem_append_left _ ?_)
  rw [args] at h
  cases hblocks : s.func.blocks with
  | nil => simp [hblocks] at h
  | cons blk blks =>
    rw [hblocks] at h
    exact mem_flatMap.mpr ⟨blk, mem_cons_self, mem_map_of_mem h⟩

theorem operand_lt_ctx (hfeeds : Feeds s.func next feed) {v : Value} (hv : v ∈ feed.operands) :
    v < s.ctx :=
  lt_nextValue (mem_values_of_uses hfeeds.mem (mem_uses.mpr (Or.inl hv)))

/-- The event of a stage fits the next stage. -/
theorem matches_feed {t : NamedStage} (hfeeds : Feeds s.func t.func feed)
    (hinit : s.initNames = ContextIdentification.initNames s.func t.func t.argNames)
    (hemp : ∀ p, t.argNames p ≠ some "") (hnd : (t.func.args.map Prod.fst).Nodup)
    (hdist : Distinct t.func.args.length t.argNames) : s.Matches t feed := by
  obtain ⟨a, vs, hops, hatom, htypes⟩ := hfeeds.operands
  obtain ⟨tys, event, hkind⟩ := kind_of_targets hfeeds.targets
  have hrestored : s.restoredFeed feed = s.newInit feed (feedNames t.argNames vs.length) := by
    rw [restoredFeed, hinit, initNames_feed hfeeds hops]
  have hnew : t.newArgs = (t.ctx, .context) :: unnamed t.argNames 0 t.func.args := by
    rw [newArgs, keptArgs_eq hdist hnd]
  have hlen : (unnamed t.argNames 0 vs).length = (unnamed t.argNames 0 t.func.args).length := by
    have := congrArg (fun l => (unnamed t.argNames 0 l).length) htypes
    simpa only [← map_unnamed, length_map] using this
  have htypeOf : ∀ v ∈ feed.operands, s.typeOf v = (s.func.typeOf v).getD .any :=
    fun v hv => if_neg (operand_lt_ctx hfeeds hv).ne
  have ha : s.typeOf a = .atom := by
    rw [htypeOf a (by simp [hops]), hatom]
    rfl
  have hvs : vs.map s.typeOf = t.func.args.map Prod.snd := by
    rw [map_congr_left fun v hv => htypeOf v (by simp [hops, hv])]
    have := congrArg (List.map fun ty => Option.getD ty Ty.any) htypes
    simpa only [map_map, Function.comp_def, Option.getD_some] using this
  rw [Matches, hrestored, newInit, hops, newOperands_feed hemp hatom, hnew]
  refine ⟨by simp [hlen], event, ?_⟩
  simp only [newEvent, hkind, map_cons, ha, map_unnamed, hvs]
  simp [typeOf]

end NamedStage

/-! ## One stage -/

section Stage

open NamedStage

variable {Val : Type} [Inhabited Val] [DecidableEq Val] {I : Interp Val} {s : NamedStage}
  {next : FuncOp} {names : Names} {feed : PlainOp}
variable {f : FuncOp} {c : Val}

theorem FuncOp.SsaForm.nodup_args (hf : f.SsaForm) : (f.args.map Prod.fst).Nodup := by
  rw [← f.argsOf_zero]
  exact (nodup_append.mp (hf.nodup 0)).1

theorem FuncOp.mem_values_of_argsOf {b : Nat} {v : Value} (h : v ∈ f.argsOf b) : v ∈ f.values := by
  rw [argsOf] at h
  cases hblk : f.blocks[b]? with
  | none => simp [hblk] at h
  | some blk =>
    rw [hblk] at h
    exact mem_append_left _ (mem_flatMap.mpr ⟨blk, mem_of_getElem? hblk, h⟩)

section Feeds

variable (hf : s.func.SsaForm) (hfeeds : Feeds s.func next feed) {ev : Value} {ty : Ty}
  (hresult : feed.results = [(ev, ty)])

include hfeeds hresult

theorem event_lt_ctx : ev < s.ctx :=
  lt_nextValue (mem_values_of_binds hfeeds.mem (by simp [binds, hresult]))

theorem operand_ne_event {v : Value} (hv : v ∈ feed.operands) : v ≠ ev := by
  rintro rfl
  obtain ⟨tys, event, hkind⟩ := kind_of_targets hfeeds.targets
  have hret := hfeeds.returned v (by simp [hresult]) _ hfeeds.mem
    (mem_uses.mpr (Or.inl hv))
  simp [isReturn, kind?, hkind] at hret

include hf

variable {w : List FuncOp.Leg} {x : Instr}

omit hfeeds in
/-- The event is initialised once on a walk. -/
theorem ne_feed_of_mem (hw : s.func.Walk 0 w) {pre post : List Instr}
    (hcode : s.func.code w = pre ++ .op (.plain feed) :: post) (hx : x ∈ pre ++ post) :
    x ≠ .op (.plain feed) := by
  rintro rfl
  have hbinds : ev ∈ (Instr.op (.plain feed)).binds := by
    simp [Instr.binds, binds, hresult]
  have hnd := (nodup_append.mp (hf.nodup_code hw)).2.1
  rw [hcode, flatMap_append, flatMap_cons, nodup_append, nodup_append] at hnd
  obtain ⟨-, ⟨-, -, hpost⟩, hpre⟩ := hnd
  rcases mem_append.mp hx with hx | hx
  · exact hpre ev (mem_flatMap.mpr ⟨_, hx, hbinds⟩) ev (mem_append_left _ hbinds) rfl
  · exact hpost ev hbinds ev (mem_flatMap.mpr ⟨_, hx, hbinds⟩) rfl

/-- The instructions of a stage other than its event. -/
theorem regular_of_mem (hslots : s.func.KeepsSlots)
    (hinit : s.initNames = ContextIdentification.initNames s.func next names)
    (hw : s.func.Walk 0 w) (hx : x ∈ s.func.code w) (hne : x ≠ .op (.plain feed)) :
    NamedStage.Regular s ev x where
  uses v hv := by
    rcases mem_code_cases hw hx with ⟨o, ho, rfl⟩ | ⟨-, hterm⟩
    · exact lt_nextValue (mem_values_of_uses ho hv)
    · obtain ⟨o, ho, -, hv⟩ := hterm v hv
      exact lt_nextValue (mem_values_of_uses ho (mem_uses.mpr (Or.inl hv)))
  event hev := by
    have hreturned := hfeeds.returned ev (by simp [hresult])
    rcases mem_code_cases hw hx with ⟨o, ho, rfl⟩ | ⟨-, hterm⟩
    · have hret := hreturned o ho hev
      cases o with
      | guard => cases hret
      | plain op =>
        have hkind : op.kind = .ret := by simpa [isReturn, kind?] using hret
        obtain ⟨c, o, ho, heq⟩ := (mem_code_binds hw hx).resolve_right fun h =>
          absurd rfl (h.1 _)
        obtain rfl := Instr.op.inj heq
        exact ⟨op, rfl, hkind, hf.results c _ ho (by simp [hkind, effects])⟩
    · obtain ⟨o, ho, hbranch, hoperand⟩ := hterm ev hev
      have hret := hreturned o ho (mem_uses.mpr (Or.inl hoperand))
      simp [isReturn, hbranch] at hret
  binds v hv := by
    constructor
    · refine lt_nextValue ?_
      rcases mem_code_binds hw hx with ⟨c, o, ho, rfl⟩ | ⟨-, c, hc⟩
      · exact mem_values_of_binds (mem_operations_of_code hw hx) hv
      · exact mem_values_of_argsOf (hc hv)
    · intro harg
      have harg : v ∈ s.func.argsOf 0 := by
        rw [argsOf_zero]
        exact (contextArgsFrom_sublist _ _ _ _).subset harg
      exact (nodup_append.mp (hf.nodup_code hw)).2.2 v harg v
        (mem_flatMap.mpr ⟨x, hx, hv⟩) rfl
  slots o ho c hc := hslots o (mem_operations_of_code hw (ho ▸ hx)) c hc
  other op hop := by
    subst hop
    rw [hinit, ContextIdentification.initNames, if_neg]
    intro htgts
    exact hne (congrArg _ (congrArg _
      (hfeeds.unique op (mem_operations_of_code hw hx) htgts)))

end Feeds

/-- Names that `contextIdentification` makes. -/
def ContextNames (names : Names) : Prop :=
  ∀ p a, names p = some a → ∃ k, a = contextName k

theorem ContextNames.ne_empty (h : ContextNames names) (p : Nat) : names p ≠ some "" := by
  intro hp
  obtain ⟨k, hk⟩ := h p "" hp
  exact contextName_ne_empty k hk.symm

theorem ContextNames.isSlot (h : ContextNames names) {n : Nat} {a : String}
    (ha : a ∈ feedNames names n) (hne : a ≠ "") : IsSlot (.context a) := by
  rcases mem_cons.mp ha with rfl | ha
  · exact absurd rfl hne
  obtain ⟨p, -, rfl⟩ := mem_map.mp ha
  cases hp : names p with
  | none => simp [hp] at hne
  | some b =>
    obtain ⟨k, rfl⟩ := h p b hp
    exact ⟨k, rfl⟩

/-- What the event for the next stage leaves behind. -/
theorem sim_feed (hfeeds : Feeds s.func next feed) {ev : Value} {ty : Ty}
    (hresult : feed.results = [(ev, ty)]) {a : Value} {vs : List Value}
    (hops : feed.operands = a :: vs) (hslots : ContextNames names)
    (hnms : Distinct vs.length names) {T : Cell → Val → Val} {S τ : State Val}
    (hheld : ∀ r ∈ s.contextArgs, T (.context r.name) (contextRef I r.name c) = S.env r.arg)
    {n : Value} (hn : s.firstFree ≤ n) (h : s.Sim I c ev T S τ) :
    ∃ T' τ', exec I silent (s.storeOps n feed.operands (feedNames names vs.length)) τ = τ' ∧
      s.Sim I c ev T' S τ' ∧
      ∀ i b, names i = some b → ∀ v, vs[i]? = some v →
        T' (.context b) (contextRef I b c) = S.env v := by
  obtain ⟨T', hsim, -, hstored⟩ := h.storeOps hn
    (fun v hv => ⟨operand_lt_ctx hfeeds hv, operand_ne_event hfeeds hresult hv⟩)
    (fun b hb hne => hslots.isSlot hb hne) (pairwise_feedNames hnms) (by
      rintro ⟨v, b⟩ - r hr rfl rfl
      exact hheld r hr)
  refine ⟨T', _, rfl, hsim, fun i b hb v hv => ?_⟩
  have hi := (List.getElem?_eq_some_iff.mp hv).1
  have hmem : (v, b) ∈ feed.operands.zip (feedNames names vs.length) := by
    rw [hops, mem_iff_getElem?]
    refine ⟨i + 1, ?_⟩
    rw [getElem?_zip_eq_some]
    exact ⟨hv, by simp [feedNames, hi, hb]⟩
  exact hstored (v, b) hmem fun h => hslots.ne_empty i (h ▸ hb)

/-- A stage sends the same values, some of them in the context. -/
theorem delivers_restoreContext (hf : s.func.SsaForm) (hkeeps : s.func.KeepsSlots)
    (hfeeds : Feeds s.func next feed)
    (hinit : s.initNames = ContextIdentification.initNames s.func next names)
    (hdist : Distinct s.func.args.length s.argNames) (hslots : ContextNames names)
    (hnms : Distinct next.args.length names) {inputs outs : List Val}
    {cells cells' cells₁ : Cell → Val → Val} (hlen : s.func.args.length = inputs.length)
    (hcells : ∀ c, ¬ IsSlot c → cells' c = cells c) (hholds : s.Holds I c inputs cells')
    (h : s.func.Delivers I feed inputs cells outs cells₁) :
    ∃ a cells₁', s.restoreContext.Delivers I (s.restoredFeed feed)
        (c :: unnamed s.argNames 0 inputs) cells' (a :: c :: unnamed names 0 outs.tail) cells₁' ∧
      next.args.length = outs.tail.length ∧ (∀ c, ¬ IsSlot c → cells₁' c = cells₁ c) ∧
      ∀ i b x, names i = some b → outs.tail[i]? = some x →
        cells₁' (.context b) (contextRef I b c) = x := by
  obtain ⟨w, pre, post, S, S', hw, hcode, hpre, hpost, rfl, rfl⟩ := h
  obtain ⟨ev, ty, hresult⟩ := hfeeds.result
  obtain ⟨a, vs, hops, hatom, htypes⟩ := hfeeds.operands
  obtain ⟨tys, event, hkind⟩ := kind_of_targets hfeeds.targets
  have hlenvs : vs.length = next.args.length := by simpa using congrArg List.length htypes
  have hblocks : s.func.blocks ≠ [] := by
    intro hnil
    have := hfeeds.mem
    simp [operations, hnil] at this
  have hregular : ∀ x ∈ pre ++ post, NamedStage.Regular s ev x := by
    intro x hx
    refine regular_of_mem hf hfeeds hresult hkeeps hinit hw ?_
      (ne_feed_of_mem hf hresult hw hcode hx)
    rw [hcode]
    exact (mem_append.mp hx).elim (mem_append_left _) fun h =>
      mem_append_right _ (mem_cons_of_mem _ h)
  -- up to the event
  rw [argsOf_zero] at hpre
  obtain ⟨zs, hzs, hexp⟩ := expands_code hf hblocks hw
  rw [hcode] at hexp
  obtain ⟨n, ys, ys', hn, rfl, hys, hys'⟩ := hexp.split
  obtain ⟨τ, hτ, hsim⟩ := (Sim.start hdist hf.nodup_args hlen hcells hholds
    ev).instrs hys (fun x hx => hregular x (mem_append_left _ hx)) hpre
  -- the event
  have hheld : ∀ r ∈ s.contextArgs, cells' (.context r.name) (contextRef I r.name c) =
      S.env r.arg := by
    intro r hr
    rw [hholds.arg hf.nodup_args hlen hr]
    refine (execInstrs_env_of_not_mem hpre fun x hx hmem => ?_).symm
    exact ((hregular x (mem_append_left _ hx)).binds r.arg hmem).2 (mem_map_of_mem hr)
  obtain ⟨T, τ₁, hτ₁, hsim₁, hT⟩ :=
    sim_feed hfeeds hresult hops hslots (hlenvs ▸ hnms) hheld hn hsim
  -- the rest of the stage
  obtain ⟨τ', hτ', hsim'⟩ := (hsim₁.newInit hkind hresult (event_lt_ctx hfeeds hresult)).instrs hys'
    (fun x hx => hregular x (mem_append_right _ hx)) hpost
  have hrestored : s.restoredFeed feed = s.newInit feed (feedNames names vs.length) := by
    rw [restoredFeed, hinit, initNames_feed hfeeds hops]
  have hrewrite : s.rewriteOp n (.plain feed) =
      s.storeOps n feed.operands (feedNames names vs.length) ++ [.plain (s.restoredFeed feed)] := by
    rw [rewriteOp, hinit, initNames_feed hfeeds hops, hrestored]
  have houts : (s.restoredFeed feed).operands.map τ₁.env =
      S.env a :: c :: unnamed names 0 (vs.map S.env) := by
    have henv : ∀ v ∈ feed.operands, τ₁.env (s.subst v) = S.env v := fun v hv =>
      hsim₁.renamed.env v ⟨operand_lt_ctx hfeeds hv, operand_ne_event hfeeds hresult hv⟩
    have hctx : s.subst s.ctx = s.ctx := by
      refine subst_of_not_mem fun hmem => ?_
      obtain ⟨arg, harg, heq⟩ := mem_map.mp
        ((contextArgsFrom_sublist _ _ _ _).subset hmem)
      exact absurd heq (lt_ctx_of_mem_args harg).ne
    rw [hrestored, newInit, hops, newOperands_feed hslots.ne_empty hatom]
    simp only [map_cons, map_map, hctx, hsim₁.ctx, henv a (by simp [hops]), ← map_unnamed]
    refine congrArg _ (congrArg _ (map_congr_left fun v hv => ?_))
    exact henv v (by simp [hops, (unnamed_sublist _ _).subset hv])
  refine ⟨S.env a, τ'.cells, ⟨_, s.prelude.map .op ++ ys ++
    (s.storeOps n feed.operands (feedNames names vs.length)).map .op, ys', τ₁, τ',
    walk_restoreContext hf.entry hw, ?_, ?_, ?_, ?_, rfl⟩, ?_, ?_, ?_⟩
  · rw [hzs, hrewrite]
    simp
  · rw [argsOf_restoreContext_zero hblocks]
    simp [hτ, hτ₁]
  · rw [hrestored]
    exact hτ'
  · rw [houts, hops]
    rfl
  · simp [hops, hlenvs]
  · exact fun k hk => hsim'.renamed.cells k hk
  · intro i b x hb hx
    rw [hops, map_cons, tail_cons, getElem?_map, Option.map_eq_some_iff] at hx
    obtain ⟨v, hv, rfl⟩ := hx
    obtain ⟨k, rfl⟩ := hslots i b hb
    rw [hsim'.slots _ ⟨k, rfl⟩, hT i _ hb v hv]

end Stage

end Alkali
