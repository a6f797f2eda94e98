import Alkali.Lowering.Returns
import Alkali.Linearize.Pass

/-!
# Lowered code sends initialised events

The lowered code runs along the walk of the handler. It sends the events in the
order of the `InitOp`s on the walk, and the handler emits them in the order of the
`ReturnOp`s. So the two sequences are equal exactly if on the walk every event is
returned once, in the order of initialisation.
-/

namespace Alkali

open List Backend FuncOp Option Message Operation

namespace Backend

variable {B : Backend} {f : FuncOp} {op : PlainOp} {d : SendOp}

/-- The values for which the lowered code has other values. -/
def standIns (B : Backend) (f : FuncOp) : List Value :=
  match B with
  | rawLLVM _ => f.eventValues
  | netronome => []

theorem mapped_subset (f : FuncOp) (operands : List Value) : f.mapped operands ⊆ operands := by
  cases operands with
  | nil => exact List.Subset.refl _
  | cons v vs =>
    rw [mapped]
    split
    · exact subset_cons_self v vs
    · exact List.Subset.refl _

theorem eventSend_spec (h : B.eventSend f op = some d) :
    (∃ name, op.event? = some (name, d.event)) ∧ d.args ⊆ op.operands := by
  unfold eventSend at h
  split at h
  · cases h
  · next name v hev =>
      cases B with
      | rawLLVM createWrapper =>
        simp only at h
        split at h
        · next n a args _ hmapped =>
            cases h
            exact ⟨⟨name, hev⟩, hmapped ▸ mapped_subset f op.operands⟩
        · cases h
      | netronome =>
        cases h
        exact ⟨⟨name, hev⟩, drop_subset 1 _⟩

/-- The code for an operation. -/
theorem lowerOp_cases {o : Operation} {xs : List LoweredOp} (h : B.lowerOp f o = some xs) :
    ∃ op, o = .plain op ∧ (op.kind = .ret ∧ xs = [] ∨
        (∃ d, B.eventSend f op = some d ∧ xs = B.replaceInit op d) ∨
        op.kind ≠ .ret ∧ op.event? = none ∧ xs = [.keep o]) := by
  cases o with
  | guard => cases h
  | plain op =>
    refine ⟨op, rfl, ?_⟩
    simp only [lowerOp] at h
    split at h
    · next hkind =>
        cases h
        exact Or.inl ⟨hkind, rfl⟩
    · obtain ⟨d, hd, rfl⟩ := map_eq_some_iff.mp h
      exact Or.inr (Or.inl ⟨d, hd, rfl⟩)
    · next hret hinit =>
        cases h
        refine Or.inr (Or.inr ⟨hret, ?_, rfl⟩)
        unfold PlainOp.event?
        split
        · next hkind _ => exact absurd hkind (hinit _ _)
        · rfl

theorem eventSend_eq_none (h : op.event? = none) : B.eventSend f op = none := by
  rw [eventSend, h]

end Backend

section Step

variable {Val : Type} [Inhabited Val] [DecidableEq Val] {B : Backend} {f : FuncOp} {I : Interp Val}

/-- A `ReturnOp` changes nothing. -/
theorem PlainOp.step_of_ret {op : PlainOp} (hkind : op.kind = .ret) (hres : op.results = [])
    (s : State Val) : op.step I silent s = s := by
  simp [PlainOp.step, hkind, hres, OpKind.write, OpKind.writes, silent]

/-- What the argument uses of an instruction of the handler. -/
structure Regular (B : Backend) (f : FuncOp) (x : Instr) : Prop where
  inits : ∀ v ∈ x.inits, v ∈ f.eventValues
  returns : ∀ v ∈ x.returned, v ∈ f.eventValues
  defs : ∀ v ∈ x.defs, v ∈ f.eventValues → v ∈ x.inits
  uses : ∀ v ∈ B.standIns f, v ∈ x.uses → ∃ op, x = .op (.plain op) ∧ op.kind = .ret
  results : ∀ op, x = .op (.plain op) → op.kind = .ret → op.results = []

/-- The states of the handler and of the lowered code at the same point of a walk,
where the values `A` are available. -/
structure Tracks (B : Backend) (f : FuncOp) (A : List Value) (s : EventState Val)
    (t : LoweredState Val) : Prop where
  agree : AgreeExcept (B.standIns f) s.state t.state
  built : ∀ v m, s.built v = some m → m ∈ t.sent ∧ m.event = v
  available : ∀ v ∈ A, v ∈ f.eventValues → (s.built v).isSome
  log : ∀ m ∈ s.log, m ∈ t.sent

variable {A : List Value} {s : EventState Val} {t : LoweredState Val}

omit [Inhabited Val] [DecidableEq Val] in
theorem Tracks.withState {u u' : State Val} {D : List Value} (h : Tracks B f A s t)
    (hagree : AgreeExcept (B.standIns f) u u') (hD : ∀ v ∈ D, v ∉ f.eventValues) :
    Tracks B f (A ++ D) { s with state := u } { t with state := u' } where
  agree := hagree
  built := h.built
  available v hv hev := (mem_append.mp hv).elim (fun hA => h.available v hA hev)
    fun hd => absurd hev (hD v hd)
  log := h.log

omit [Inhabited Val] [DecidableEq Val] in
/-- What was built for the operand of a `ReturnOp`. -/
theorem Tracks.returned {vs : List Value} (h : Tracks B f A s t) (hvs : ∀ v ∈ vs, v ∈ A)
    (hevents : ∀ v ∈ vs, v ∈ f.eventValues) :
    (vs.filterMap s.built).map event = vs ∧ ∀ m ∈ vs.filterMap s.built, m ∈ t.sent := by
  constructor
  · induction vs with
    | nil => rfl
    | cons v vs ih =>
      obtain ⟨m, hm⟩ := isSome_iff_exists.mp
        (h.available v (hvs v (by simp)) (hevents v (by simp)))
      rw [filterMap_cons_some hm, map_cons, (h.built v m hm).2,
        ih (fun u hu => hvs u (by simp [hu])) fun u hu => hevents u (by simp [hu])]
  · intro m hm
    obtain ⟨v, -, hv⟩ := mem_filterMap.mp hm
    exact (h.built v m hv).1

/-- What happens along instructions: the states stay related, the lowered code
sends the events that are initialised, and the handler emits those returned. -/
structure Advances (B : Backend) (f : FuncOp) (A : List Value) (xs : List Instr)
    (s s' : EventState Val) (t t' : LoweredState Val) : Prop where
  tracks : Tracks B f (A ++ xs.flatMap Instr.defs) s' t'
  sent : t'.sent.map event = t.sent.map event ++ xs.flatMap Instr.inits
  log : s'.log.map event = s.log.map event ++ xs.flatMap Instr.returned

open Advances

omit [Inhabited Val] [DecidableEq Val] in
theorem Advances.trans {xs ys : List Instr} {s s' s'' : EventState Val}
    {t t' t'' : LoweredState Val} (h : Advances B f A xs s s' t t')
    (h' : Advances B f (A ++ xs.flatMap Instr.defs) ys s' s'' t' t'') :
    Advances B f A (xs ++ ys) s s'' t t'' where
  tracks := by simpa using h'.tracks
  sent := by rw [h'.sent, h.sent, flatMap_append, append_assoc]
  log := by rw [h'.log, h.log, flatMap_append, append_assoc]

theorem EventState.step_plain (op : PlainOp) (s : EventState Val) : s.step B f I (.plain op) =
      { state := op.step I silent s.state
        built := match B.eventSend f op with
          | some d => Function.update s.built d.event (some (d.message s.state.env))
          | none => s.built
        log := s.log ++ (plain op).returned.filterMap s.built } := rfl

variable {op : PlainOp}

theorem Regular.not_mem_uses (h : Regular B f (.op (.plain op))) (hkind : op.kind ≠ .ret) :
    ∀ v ∈ B.standIns f, v ∉ (plain op).uses := by
  intro v hv hmem
  obtain ⟨op', heq, hret⟩ := h.uses v hv hmem
  cases heq
  exact hkind hret

section

variable (h : Tracks B f A s t) (hreg : Regular B f (.op (.plain op)))
include h hreg

theorem Advances.ret (hkind : op.kind = .ret) (huses : ∀ v ∈ op.operands, v ∈ A) :
    Advances B f A [.op (.plain op)] s (s.step B f I (.plain op)) t t := by
  have hev : op.event? = none := by
    rw [PlainOp.event?, hkind]
  have hres : op.results = [] := hreg.results op rfl hkind
  have hret : (plain op).returned = op.operands.take 1 := if_pos hkind
  obtain ⟨hlog, hsent⟩ := h.returned (fun v hv => huses v (mem_of_mem_take hv))
    (fun v hv => hreg.returns v (by rw [Instr.returned, hret]; exact hv))
  rw [EventState.step_plain, PlainOp.step_of_ret hkind hres, eventSend_eq_none hev, hret]
  refine ⟨?_, ?_, ?_⟩
  · refine ⟨h.agree, h.built, ?_, ?_⟩
    · simpa [Instr.defs, defs, results, hres] using h.available
    · intro m hm
      exact (mem_append.mp hm).elim (h.log m) (hsent m)
  · simp [Instr.inits, event?, hev]
  · simp [hlog, Instr.returned, hret]

theorem Advances.keep (hkind : op.kind ≠ .ret) (hev : op.event? = none) :
    Advances B f A [.op (.plain op)] s (s.step B f I (.plain op)) t
      (execLowered I [.keep (.plain op)] t) := by
  have hret : (plain op).returned = [] := if_neg hkind
  have huses := hreg.not_mem_uses hkind
  have hinits : (Instr.op (.plain op)).inits = [] := by simp [Instr.inits, event?, hev]
  have hagree : AgreeExcept (B.standIns f) (op.step I silent s.state) (op.step I silent t.state) :=
    h.agree.operation huses
  have htracks : Tracks B f (A ++ (Instr.op (.plain op)).defs)
      { s with state := op.step I silent s.state } { t with state := op.step I silent t.state } :=
    h.withState hagree fun v hv hmem => by simpa [hinits] using hreg.defs v hv hmem
  rw [EventState.step_plain, eventSend_eq_none hev, hret]
  refine ⟨?_, ?_, ?_⟩
  · rw [flatMap_singleton, filterMap_nil, append_nil]
    exact htracks
  · simp [hinits, execLowered, LoweredOp.step]
  · simp [Instr.returned, hret]

/-- The values of the lowered code after an `InitOp` of an event. -/
theorem agree_replaceInit {d : SendOp} (hd : B.eventSend f op = some d) :
    AgreeExcept (B.standIns f) (op.step I silent s.state)
      (execLowered I (B.replaceInit op d) t).state := by
  obtain ⟨⟨name, hev⟩, -⟩ := eventSend_spec hd
  obtain ⟨hres, hpure, hkind⟩ := inits_of_event hev
  cases B with
  | netronome => exact h.agree.operation (hreg.not_mem_uses hkind)
  | rawLLVM createWrapper =>
    have hmem : d.event ∈ f.eventValues :=
      hreg.inits d.event (by simp [Instr.inits, event?, hev])
    have herase : AgreeExcept f.eventValues (op.step I silent s.state) t.state :=
      h.agree.erase (o := .plain op) hpure rfl (by simp [binds, hres, standIns, hmem])
    refine ⟨fun v hv => ?_, herase.cells, herase.trace⟩
    have hne : v ∉ [d.event] := fun hv' => hv (mem_singleton.mp hv' ▸ hmem)
    exact (herase.env v hv).trans (setResults_of_not_mem hne).symm

/-- An event is built and sent. -/
theorem Advances.init {d : SendOp} (hd : B.eventSend f op = some d) :
    Advances B f A [.op (.plain op)] s (s.step B f I (.plain op)) t
      (execLowered I (B.replaceInit op d) t) := by
  obtain ⟨⟨name, hev⟩, hargs⟩ := eventSend_spec hd
  obtain ⟨hres, hpure, hkind⟩ := inits_of_event hev
  have hret : (plain op).returned = [] := if_neg hkind
  have hinits : (Instr.op (.plain op)).inits = [d.event] := by simp [Instr.inits, event?, hev]
  have hmessage : d.message t.state.env = d.message s.state.env := by
    have hmap : d.args.map s.state.env = d.args.map t.state.env :=
      h.agree.map fun v hv hmem => hreg.not_mem_uses hkind v hv
        (mem_uses.mpr (Or.inl (hargs hmem)))
    rw [SendOp.message, SendOp.message, hmap]
  have hsent : (execLowered I (B.replaceInit op d) t).sent = t.sent ++ [d.message s.state.env] := by
    rw [← hmessage]
    cases B <;> rfl
  rw [EventState.step_plain, hd, hret]
  refine ⟨⟨agree_replaceInit h hreg hd, fun v m hm => ?_, fun v hv hmem => ?_, fun m hm => ?_⟩,
    ?_, ?_⟩
  · rw [hsent]
    by_cases hv : v = d.event
    · subst hv
      simp only [Function.update_self, some.injEq] at hm
      exact ⟨by simp [hm], by rw [← hm]; rfl⟩
    · simp only [Function.update_of_ne hv] at hm
      exact ⟨mem_append_left _ (h.built v m hm).1, (h.built v m hm).2⟩
  · by_cases hve : v = d.event
    · simp [hve]
    · simp only [Function.update_of_ne hve]
      refine h.available v ((mem_append.mp hv).resolve_right fun hdef => hve ?_) hmem
      rw [flatMap_singleton] at hdef
      simpa [hinits] using hreg.defs v hdef hmem
  · rw [hsent]
    exact mem_append_left _ (h.log m (by simpa using hm))
  · simp [hsent, hinits, SendOp.message]
  · simp [Instr.returned, hret]

end

/-- One operation. -/
theorem Advances.operation {o : Operation} {xs : List LoweredOp} (h : Tracks B f A s t)
    (hlower : B.lowerOp f o = some xs) (hreg : Regular B f (.op o)) (huses : ∀ v ∈ o.uses, v ∈ A) :
    Advances B f A [.op o] s (s.step B f I o) t (execLowered I xs t) := by
  obtain ⟨op, rfl, ⟨hkind, rfl⟩ | ⟨d, hd, rfl⟩ | ⟨hkind, hev, rfl⟩⟩ :=
    lowerOp_cases hlower
  · exact ret h hreg hkind fun v hv => huses v (mem_uses.mpr (Or.inl hv))
  · exact init h hreg hd
  · exact keep h hreg hkind hev

theorem execLowered_append (xs ys : List LoweredOp) (t : LoweredState Val) :
    execLowered I (xs ++ ys) t = execLowered I ys (execLowered I xs t) :=
  foldl_append ..

/-- The operations of a block. -/
theorem Advances.operations {ops : List Operation} {xs : List LoweredOp} (h : Tracks B f A s t)
    (hlower : B.lowerOps f ops = some xs) (hreg : ∀ o ∈ ops, Regular B f (.op o))
    (huses : InstrsFrom A (ops.map .op)) :
    ∃ s', execEvents B f I (ops.map .op) s = some s' ∧
      Advances B f A (ops.map .op) s s' t (execLowered I xs t) := by
  induction ops generalizing A s t xs with
  | nil =>
    cases hlower
    exact ⟨s, rfl, by simpa [execLowered] using h, by simp [execLowered], by simp⟩
  | cons o ops ih =>
    unfold lowerOps at hlower
    split at hlower
    · next ys zs hhead htail =>
        cases hlower
        have hstep := operation (I := I) h hhead (hreg o (by simp)) huses.1
        obtain ⟨s', hs', hrest⟩ := ih hstep.tracks htail (fun p hp => hreg p (by simp [hp]))
          (by simpa using huses.2)
        refine ⟨s', hs', ?_⟩
        rw [execLowered_append]
        exact hstep.trans hrest
    · cases hlower

/-- The instructions of an edge. -/
theorem Advances.edge {xs : List Instr} {u : State Val} (h : Tracks B f A s t)
    (hno : ∀ p, .op p ∉ xs) (hreg : ∀ x ∈ xs, Regular B f x)
    (hexec : execInstrs I silent xs s.state = some u) :
    ∃ u', execInstrs I silent xs t.state = some u' ∧
      Advances B f A xs s { s with state := u } t { t with state := u' } := by
  have huses : ∀ x ∈ xs, ∀ v ∈ B.standIns f, v ∉ x.uses := by
    intro x hx v hv hmem
    obtain ⟨op, rfl, -⟩ := (hreg x hx).uses v hv hmem
    exact hno _ hx
  have hinits : ∀ x ∈ xs, x.inits = [] ∧ x.returned = [] := by
    intro x hx
    cases x with
    | op p => exact absurd hx (hno p)
    | bind => exact ⟨rfl, rfl⟩
    | test => exact ⟨rfl, rfl⟩
  obtain ⟨u', hu', hagree⟩ := Fallible.exists_of_rel (h.agree.instrs huses) hexec
  refine ⟨u', hu', h.withState hagree fun v hv hmem => ?_, ?_, ?_⟩
  · obtain ⟨x, hx, hdef⟩ := mem_flatMap.mp hv
    simpa [(hinits x hx).1] using (hreg x hx).defs v hdef hmem
  · simpa using fun x hx => (hinits x hx).1
  · simpa using fun x hx => (hinits x hx).2

end Step

section Run

variable {Val : Type} [Inhabited Val] [DecidableEq Val] {B : Backend} {f : FuncOp} {I : Interp Val}
  {g : LoweredFunc}

theorem Backend.getElem?_lowerBlocks {blks : List Block} {gs : List LoweredBlock}
    (h : B.lowerBlocks f blks = some gs) (b : Nat) :
    (blks[b]? = none ∧ gs[b]? = none) ∨ ∃ blk ops, blks[b]? = some blk ∧
      B.lowerOps f blk.ops = some ops ∧ gs[b]? = some ⟨blk.args, ops, blk.term⟩ := by
  induction blks generalizing gs b with
  | nil =>
    cases h
    exact Or.inl ⟨rfl, rfl⟩
  | cons blk blks ih =>
    unfold lowerBlocks at h
    split at h
    · next ops rest hops hrest =>
        cases h
        cases b with
        | zero => exact Or.inr ⟨blk, ops, rfl, hops, rfl⟩
        | succ b => exact ih hrest b
    · cases h

variable (h : B.lower f = some g)
include h

/-- The lowered handler has the blocks of the handler. -/
theorem Backend.lower_spec (b : Nat) : g.argsOf b = f.argsOf b ∧ g.termOf b = f.termOf b ∧
      B.lowerOps f (f.opsOf b) = some (g.opsOf b) := by
  obtain ⟨gs, hgs, rfl⟩ := map_eq_some_iff.mp h
  rcases getElem?_lowerBlocks hgs b with ⟨hf, hg⟩ | ⟨blk, ops, hf, hops, hg⟩
  · simp [LoweredFunc.argsOf, LoweredFunc.termOf, LoweredFunc.opsOf, argsOf, termOf,
      opsOf, hf, hg, lowerOps]
  · simp [LoweredFunc.argsOf, LoweredFunc.termOf, LoweredFunc.opsOf, argsOf, termOf,
      opsOf, hf, hg, hops]

/-- The lowered code goes on along an edge whose test succeeds. -/
theorem LoweredFunc.runFrom_edge {n b d : Nat} {instrs : List Instr} {t r : LoweredState Val}
    {u : State Val} (hedge : (instrs, d) ∈ f.edges b)
    (hinstrs : execInstrs I silent instrs (execLowered I (g.opsOf b) t).state = some u)
    (hrest : g.runFrom I n d { execLowered I (g.opsOf b) t with state := u } = some r) :
    g.runFrom I (n + 1) b t = some r := by
  obtain ⟨-, hterm, -⟩ := lower_spec h b
  rw [runFrom, hterm]
  rw [edges] at hedge
  cases hbr : f.termOf b with
  | terminate =>
    rw [hbr] at hedge
    cases hedge
  | br dest args =>
    rw [hbr] at hedge
    cases mem_singleton.mp hedge
    cases hinstrs
    simpa [(lower_spec h d).1] using hrest
  | condBr cond trueDest trueArgs falseDest falseArgs =>
    rw [hbr] at hedge
    simp only [mem_cons, not_mem_nil, or_false, Prod.mk.injEq] at hedge
    rcases hedge with ⟨rfl, rfl⟩ | ⟨rfl, rfl⟩
    · cases hcond : I.truth ((execLowered I (g.opsOf b) t).state.env cond) with
      | false => simp [Instr.step, hcond] at hinstrs
      | true =>
        simp only [execInstrs_cons, Instr.step, hcond] at hinstrs
        cases hinstrs
        simpa [hcond, (lower_spec h d).1] using hrest
    · cases hcond : I.truth ((execLowered I (g.opsOf b) t).state.env cond) with
      | true => simp [Instr.step, hcond] at hinstrs
      | false =>
        simp only [execInstrs_cons, Instr.step, hcond] at hinstrs
        cases hinstrs
        simpa [hcond, (lower_spec h d).1] using hrest

variable {w : List FuncOp.Leg}

/-- The lowered code follows the walk of the handler. -/
theorem Advances.walk {b : Nat} (hw : f.Walk b w) (hreg : ∀ x ∈ f.code w, Regular B f x)
    {A : List Value} (huses : InstrsFrom A (f.code w)) {s s' : EventState Val}
    {t : LoweredState Val} (htracks : Tracks B f A s t)
    (hexec : execEvents B f I (f.code w) s = some s') :
    ∃ n t', g.runFrom I n b t = some t' ∧ Advances B f A (f.code w) s s' t t' := by
  induction hw generalizing A s t with
  | @stop b hterm =>
    simp only [code_cons, code_nil, append_nil] at hreg huses hexec ⊢
    obtain ⟨u, hu, hblock⟩ := operations (I := I) htracks (lower_spec h b).2.2
      (fun o ho => hreg _ (mem_map_of_mem ho)) huses
    obtain rfl : u = s' := some.inj (hu.symm.trans hexec)
    refine ⟨1, _, ?_, hblock⟩
    rw [LoweredFunc.runFrom, (lower_spec h b).2.1, hterm]
  | @go b d instrs rest hedge hrest ih =>
    rw [code_cons, append_assoc] at hreg huses hexec ⊢
    rw [instrsFrom_append, instrsFrom_append] at huses
    rw [execEvents_append] at hexec
    obtain ⟨u, hu, hblock⟩ := operations (I := I) htracks (lower_spec h b).2.2
      (fun o ho => hreg _ (mem_append_left _ (mem_map_of_mem ho))) huses.1
    rw [hu, bind_some, execEvents_append,
      execEvents_of_no_op B f I (op_not_mem_edge hedge)] at hexec
    cases hinstrs : execInstrs I silent instrs u.state with
    | none => simp [hinstrs] at hexec
    | some v =>
      rw [hinstrs, map_some, bind_some] at hexec
      obtain ⟨v', hv', hmove⟩ := edge hblock.tracks (op_not_mem_edge hedge)
        (fun x hx => hreg x (by simp [hx])) hinstrs
      obtain ⟨n, t', hrun, hgo⟩ := ih (fun x hx => hreg x (by simp [hx])) huses.2.2
        hmove.tracks hexec
      exact ⟨n + 1, t', LoweredFunc.runFrom_edge h hedge hv' hrun, hblock.trans (hmove.trans hgo)⟩

omit h

/-- The instructions of a handler in SSA form. -/
theorem FuncOp.SsaForm.regular (hf : f.SsaForm) (hrets : f.ReturnsEvents)
    (hused : f.OnlyReturned (B.standIns f)) (hw : f.Walk 0 w) {x : Instr} (hx : x ∈ f.code w) :
    Regular B f x where
  inits v hv := by
    cases x with
    | op o => exact mem_flatMap.mpr ⟨o, mem_operations_of_code hw hx, hv⟩
    | bind => cases hv
    | test => cases hv
  returns v hv := by
    cases x with
    | bind => cases hv
    | test => cases hv
    | op o =>
      obtain ⟨⟨name, u⟩, hev⟩ := isSome_iff_exists.mp
        (hrets o (mem_operations_of_code hw hx) v hv)
      obtain ⟨d, hd, hu⟩ := bind_eq_some_iff.mp hev
      obtain ⟨hmem, hdef⟩ := mem_of_definingOp hd
      cases d with
      | guard => cases hu
      | plain op =>
        have hres : op.results.map Prod.fst = [u] := (inits_of_event hu).1
        rw [defs_plain, hres, mem_singleton] at hdef
        exact mem_eventValues.mpr ⟨op, name, hmem, hdef ▸ hu⟩
  defs v hv hmem := by
    obtain ⟨hargs, hinits⟩ := hf.eventValue_unique hmem
    rcases mem_code_binds hw hx with ⟨c, o, ho, rfl⟩ | ⟨-, c, hc⟩
    · exact hinits c o ho (Instr.defs_subset_binds _ hv)
    · exact absurd (hc (Instr.defs_subset_binds _ hv)) (hargs c)
  uses v hv hmem := by
    rcases mem_code_cases hw hx with ⟨o, ho, rfl⟩ | ⟨-, hterm⟩
    · have hret := hused v hv o ho hmem
      cases o with
      | guard => cases hret
      | plain op => exact ⟨op, rfl, by simpa [isReturn, kind?] using hret⟩
    · obtain ⟨o, ho, hbranch, hoperand⟩ := hterm v hmem
      have hret := hused v hv o ho (mem_uses.mpr (Or.inl hoperand))
      simp [isReturn, hbranch] at hret
  results op hop hkind := by
    rcases mem_code_binds hw hx with ⟨c, o, ho, rfl⟩ | ⟨hno, -⟩
    · cases hop
      exact hf.results c _ ho (by simp [hkind, effects])
    · exact absurd hop (hno _)

/-- Every event is initialised once on a walk. -/
theorem FuncOp.SsaForm.nodup_inits (hf : f.SsaForm) (hw : f.Walk 0 w) :
    ((f.code w).flatMap Instr.inits).Nodup := by
  have hsub : ∀ x : Instr, x.inits.Sublist x.binds := by
    intro x
    cases x with
    | bind => exact nil_sublist _
    | test => exact nil_sublist _
    | op o =>
      cases o with
      | guard => exact nil_sublist _
      | plain op =>
        cases hev : op.event? with
        | none => simp [Instr.inits, event?, hev]
        | some e =>
          have hbinds : op.results.map Prod.fst = [e.2] := (inits_of_event hev).1
          simp [Instr.inits, event?, hev, Instr.binds, binds, hbinds]
  exact (hf.nodup_code hw).of_append_right.sublist (List.Sublist.flatMap_right _ fun x _ => hsub x)

/-- For every call of a handler, the lowered code executes the calls or enqueues of
the events that the handler emits, in their order, exactly if on the walk of the
call the sequence of initialised events is the sequence of returned events. -/
theorem Backend.sends_eq_emitted_iff (hf : f.SsaForm) (hreturns : f.ReturnsEvents)
    (hused : f.OnlyReturned (B.standIns f)) (hlower : B.lower f = some g) (I : Interp Val)
    (inputs : List Val) (cells : Cell → Val → Val) :
    (∃ w log, f.Emits B I w inputs cells log) ∧
      ∀ w log, f.Emits B I w inputs cells log → ∃ n sent, g.sends I n inputs cells = some sent ∧
        (sent = log ↔ (f.code w).flatMap Instr.inits = (f.code w).flatMap Instr.returned) := by
  constructor
  · obtain ⟨n, t, hrun⟩ := hf.acyclic.exists_run I silent 0 (initialState (f.argsOf 0) inputs cells)
    obtain ⟨w, hw, hexec⟩ := runFrom_iff.mp ⟨n, hrun⟩
    obtain ⟨s, hs⟩ := exists_execEvents B f I
      (s := ⟨initialState (f.argsOf 0) inputs cells, fun _ => none, []⟩) hexec
    exact ⟨w, s.log, hw, s, hs, rfl⟩
  · rintro w log ⟨hw, s, hs, rfl⟩
    have hstart : Tracks B f (f.argsOf 0)
        ⟨initialState (f.argsOf 0) inputs cells, fun _ => none, []⟩
        ⟨initialState (g.argsOf 0) inputs cells, []⟩ := by
      rw [(lower_spec hlower 0).1]
      refine ⟨⟨fun _ _ => rfl, rfl, rfl⟩, fun v m hm => (nomatch hm), fun v hv hmem => ?_,
        fun m hm => (nomatch hm)⟩
      exact absurd hv ((hf.eventValue_unique hmem).1 0)
    obtain ⟨n, t, hrun, hadv⟩ := Advances.walk hlower hw
      (fun x hx => hf.regular hreturns hused hw hx) (hf.uses w hw) hstart hs
    have hsent : t.sent.map event = (f.code w).flatMap Instr.inits := by
      simpa using hadv.sent
    have hlog : s.log.map event = (f.code w).flatMap Instr.returned := by
      simpa using hadv.log
    refine ⟨n, t.sent, map_eq_some_iff.mpr ⟨t, hrun, rfl⟩, ?_⟩
    constructor
    · rintro heq
      rw [← hsent, ← hlog, heq]
    · intro heq
      have hnd : (t.sent.map event).Nodup := hsent ▸ hf.nodup_inits hw
      exact (eq_of_map_eq hnd hadv.tracks.log (by rw [hlog, hsent, heq])).symm

end Run

section Conditional

open FuncOp

/-- `generate E` in a branch. -/
def generateOnce : List Operation :=
  [.plain ⟨20, .init (.struct true [.int 64, .int 64] "E"), [1, 2],
      [(4, .struct true [.int 64, .int 64] "E")]⟩,
    .plain ⟨21, .ret, [4], []⟩]

/-- Two equal events whose `InitOp`s have been merged. -/
def generateTwice : List Operation := generateOnce ++ [.plain ⟨22, .ret, [4], []⟩]

/-- The walk through the branch. -/
def taken : List Leg := [(0, [.test 0 true, .bind [] []]), (1, [.bind [] []]), (2, [])]

theorem walk_taken (ops : List Operation) : (conditional ops).Walk 0 taken :=
  .go (d := 1) (by simp [edges, conditional, termOf, argsOf])
    (.go (d := 2) (by simp [edges, conditional, termOf, argsOf]) (.stop rfl))

/-- An event that is returned once is sent. -/
theorem sends_eq_emitted_generateOnce :
    ∃ g, (rawLLVM true).lower (conditional generateOnce) = some g ∧
      ∀ log, (conditional generateOnce).Emits (.rawLLVM true) sumInterp taken [1, 5, 7]
        (fun _ _ => 0) log → ∃ n, g.sends sumInterp n [1, 5, 7] (fun _ _ => 0) = some log := by
  have hssa : (conditional generateOnce).SsaForm :=
    conditional_ssaForm (by decide) (by decide) (by decide)
  refine ⟨_, rfl, fun log hlog => ?_⟩
  obtain ⟨n, sent, hsent, hiff⟩ := (sends_eq_emitted_iff hssa (by decide) (by decide) rfl
    sumInterp [1, 5, 7] fun _ _ => 0).2 taken log hlog
  exact ⟨n, hiff.mpr (by decide) ▸ hsent⟩

/-- A handler emits an event twice, and its lowered form sends it once. -/
def SentOnce (B : Backend) : Prop :=
  ∃ g m, B.lower (conditional generateTwice) = some g ∧
    (conditional generateTwice).Emits B sumInterp taken [1, 5, 7] (fun _ _ => 0) [m, m] ∧
    g.sends sumInterp 3 [1, 5, 7] (fun _ _ => 0) = some [m]

/-- An event that is returned twice is sent once. -/
theorem sends_generateTwice :
    SentOnce (.rawLLVM false) ∧ SentOnce (.rawLLVM true) ∧ SentOnce .netronome :=
  ⟨⟨_, _, rfl, ⟨walk_taken _, _, rfl, rfl⟩, rfl⟩, ⟨_, _, rfl, ⟨walk_taken _, _, rfl, rfl⟩, rfl⟩,
    ⟨_, _, rfl, ⟨walk_taken _, _, rfl, rfl⟩, rfl⟩⟩

end Conditional

end Alkali
