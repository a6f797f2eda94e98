import Alkali.Atomic.Tables

/-!
# `AtomicIdentificationPass` on a handler

The driver replaces matches and erases operations that are not used any more, in
any order. A call leaves the same tables if in this call every replaced update
writes what its atomic update writes.
-/

namespace Alkali.FuncOp

variable {Val : Type} [Inhabited Val] [DecidableEq Val] [AddGroup Val] {f : FuncOp}
  {load : PlainOp} {m : AtomicMatch} {table key value : Value} {I : NumberInterp Val}
  {inputs : List Val} {cells : Cell → Val → Val}

/-- Call a handler: the events it returns and the state it leaves. -/
def leaves (f : FuncOp) (I : Interp Val) (n : Nat) (inputs : List Val)
    (cells : Cell → Val → Val) : Option (List (Effect Val) × (Cell → Val → Val)) :=
  outcome (f.runFrom I events n 0 (initialState (f.argsOf 0) inputs cells))

omit [AddGroup Val] in
theorem leaves_iff {I : Interp Val} {out : List (Effect Val) × (Cell → Val → Val)} :
    (∃ n, f.leaves I n inputs cells = some out) ↔ ∃ w, f.Walk 0 w ∧
      outcome (execInstrs I events (f.code w) (initialState (f.argsOf 0) inputs cells)) =
        some out := by
  constructor
  · rintro ⟨n, hn⟩
    obtain ⟨s, hs, rfl⟩ := Option.map_eq_some_iff.mp hn
    obtain ⟨w, hw, hexec⟩ := runFrom_iff.mp ⟨n, hs⟩
    exact ⟨w, hw, by rw [hexec]; rfl⟩
  · rintro ⟨w, hw, hout⟩
    obtain ⟨s, hs, rfl⟩ := Option.map_eq_some_iff.mp hout
    obtain ⟨n, hn⟩ := runFrom_iff.mpr ⟨w, hw, hs⟩
    exact ⟨n, by rw [leaves, hn]; rfl⟩

omit [AddGroup Val] in
/-- Handlers leave the same if their walks do. -/
theorem leaves_filterMapOps {I : Interp Val} {h : Operation → Option Operation}
    (hwalk : ∀ w, f.Walk 0 w →
      outcome (execInstrs I events ((f.code w).filterMap (Instr.filterMapOp h))
        (initialState (f.argsOf 0) inputs cells)) =
      outcome (execInstrs I events (f.code w) (initialState (f.argsOf 0) inputs cells)))
    (out : List (Effect Val) × (Cell → Val → Val)) :
    (∃ n, f.leaves I n inputs cells = some out) ↔
      ∃ n, (f.filterMapOps h).leaves I n inputs cells = some out := by
  rw [leaves_iff, leaves_iff]
  refine exists_congr fun w => ?_
  rw [walk_filterMapOps, argsOf_filterMapOps]
  refine and_congr_right fun hw => ?_
  rw [code_filterMapOps hw, hwalk w hw]

/-- A replaced handler whose updates write the same leaves the same. -/
theorem IsMatch.leaves_iff_of_writesSame (hm : f.IsMatch load m table key value)
    (hload : .plain load ∈ f.walk) (hsame : f.WritesSame m I inputs cells)
    (out : List (Effect Val) × (Cell → Val → Val)) :
    (∃ n, f.leaves I.toInterp n inputs cells = some out) ↔
      ∃ n, (f.replaceMatch m).leaves I.toInterp n inputs cells = some out := by
  refine leaves_filterMapOps (fun w hw => ?_) out
  have hrel := hm.related hload hw (fun front s _ o hreach _ _ => hsame w front s o hreach) _
    List.prefix_rfl
  exact (Fallible.map_eq_of_rel hrel fun s t hst => by rw [hst.trace, hst.cells]).symm

omit [AddGroup Val] in
/-- Code without an operation whose results are not used. -/
theorem outcome_eraseDead {I : Interp Val} {op : PlainOp} {xs : List Instr} {s t : State Val}
    (hpure : op.kind.isPure) (hobs : events op.kind = false)
    (hxs : ∀ x ∈ xs, ∀ v ∈ op.results.map Prod.fst, v ∉ x.uses)
    (h : AgreeExcept (op.results.map Prod.fst) s t) :
    outcome (execInstrs I events
        (xs.filterMap (Instr.filterMapOp fun o => if o.inner = op then none else some o)) t) =
      outcome (execInstrs I events xs s) := by
  induction xs generalizing s t with
  | nil => simp [outcome, h.trace, h.cells]
  | cons x xs ih =>
    have hrest := fun y hy => hxs y (List.mem_cons_of_mem x hy)
    by_cases herased : ∃ o, x = .op o ∧ o.inner = op
    · obtain ⟨o, rfl, ho⟩ := herased
      have hstep : AgreeExcept (op.results.map Prod.fst) (o.step I events s) t :=
        h.erase (ho ▸ hpure) (ho ▸ hobs) (by rw [Operation.binds, ho]; exact List.Subset.refl _)
      rw [List.filterMap_cons_none (by simp [Instr.filterMapOp, ho])]
      exact ih hrest hstep
    · have hkept : Instr.filterMapOp (fun o => if o.inner = op then none else some o) x =
          some x := by
        cases x with
        | op o => simp [Instr.filterMapOp, show o.inner ≠ op from fun ho => herased ⟨o, rfl, ho⟩]
        | bind => rfl
        | test => rfl
      rw [List.filterMap_cons_some hkept, execInstrs_cons, execInstrs_cons]
      have hx : Option.Rel _ (x.step I events s) (x.step I events t) := h.instr (hxs x (by simp))
      generalize x.step I events s = a, x.step I events t = b at hx
      cases hx with
      | some hst => exact ih hrest hst
      | none => rfl

omit [AddGroup Val] in
theorem leaves_eraseDead {I : Interp Val} {op : PlainOp} (hdead : f.isTriviallyDead op = true)
    (out : List (Effect Val) × (Cell → Val → Val)) :
    (∃ n, f.leaves I n inputs cells = some out) ↔
      ∃ n, (f.eraseDead op).leaves I n inputs cells = some out := by
  simp only [isTriviallyDead, Bool.and_eq_true, List.all_eq_true, decide_eq_true_eq] at hdead
  obtain ⟨hpure, hunused⟩ := hdead
  have hobs : events op.kind = false := by
    revert hpure
    cases op.kind <;> simp [OpKind.isPure, events]
  refine leaves_filterMapOps (fun w hw => ?_) out
  refine outcome_eraseDead hpure hobs (fun x hx v hv => ?_) ⟨fun _ _ => rfl, rfl, rfl⟩
  obtain ⟨r, hr, rfl⟩ := List.mem_map.mp hv
  exact not_mem_uses_of_no_users hw hx (hunused r hr)

/-- A run of the driver on a handler: replacements, and erased operations. For
the call that is considered, every replaced update writes the same. -/
inductive SafeSteps (I : NumberInterp Val) (inputs : List Val) (cells : Cell → Val → Val) :
    FuncOp → FuncOp → Prop
  | done {f : FuncOp} : SafeSteps I inputs cells f f
  | replace {f g : FuncOp} {load : PlainOp} {m : AtomicMatch} (hload : .plain load ∈ f.walk)
      (hm : f.matchLoad load = some m) (hsame : f.WritesSame m I inputs cells)
      (hrest : SafeSteps I inputs cells (f.replaceMatch m) g) : SafeSteps I inputs cells f g
  | erase {f g : FuncOp} {op : PlainOp} (hdead : f.isTriviallyDead op = true)
      (hrest : SafeSteps I inputs cells (f.eraseDead op) g) : SafeSteps I inputs cells f g

/-- Through a replacement the tables agree point by point exactly if the replaced
updates write the same. Through a run of such replacements a call leaves the same
tables and returns the same events. -/
theorem atomicIdentification_tables (f : FuncOp) (I : NumberInterp Val) (inputs : List Val)
    (cells : Cell → Val → Val) :
    (∀ load m, .plain load ∈ f.walk → f.matchLoad load = some m →
      (f.AgreesThroughout m I inputs cells ↔ f.WritesSame m I inputs cells)) ∧
    ∀ g, SafeSteps I inputs cells f g → ∀ out,
      (∃ n, f.leaves I.toInterp n inputs cells = some out) ↔
        ∃ n, g.leaves I.toInterp n inputs cells = some out := by
  constructor
  · intro load m hload hmatch
    obtain ⟨table, key, value, hm⟩ := isMatch_of_matchLoad hmatch
    exact hm.agreesThroughout_iff hload
  · intro g hsteps out
    induction hsteps with
    | done => rfl
    | replace hload hmatch hsame _ ih =>
      obtain ⟨table, key, value, hm⟩ := isMatch_of_matchLoad hmatch
      exact (hm.leaves_iff_of_writesSame hload hsame out).trans ih
    | erase hdead _ ih => exact (leaves_eraseDead hdead out).trans ih

section Counter

/-- Numbers as values. -/
def intInterp : NumberInterp Int where
  eval k args :=
    match k, args with
    | .compute "add", [a, b] => [a + b]
    | .compute "sub", [a, b] => [a - b]
    | _, _ => [args.sum]
  truth n := n != 0
  atomic _ old v := old + v
  eval_add _ _ := rfl
  eval_sub _ _ := rfl
  atomic_one _ _ := rfl

/-- Add a value to an entry of a table, or subtract it. -/
def counterHandler (mnemonic : String) : FuncOp where
  name := "__handler_NET_RECV"
  blocks := [{
    args := [(0, .int 64), (1, .int 64)]
    ops := [
      .plain ⟨10, .globalImport "flows", [], [(2, .table (.int 64) (.int 64) 16)]⟩,
      .plain ⟨11, .lookup "flows", [2, 0], [(3, .int 64)]⟩,
      .plain ⟨12, .compute mnemonic, [3, 1], [(4, .int 64)]⟩,
      .plain ⟨13, .update "flows", [2, 0, 4], []⟩]
    termId := 14
    term := .terminate }]

def counterMatch (mnemonic : String) : AtomicMatch where
  table := "flows"
  user := ⟨12, .compute mnemonic, [3, 1], [(4, .int 64)]⟩
  result := 4
  store := ⟨13, .update "flows", [2, 0, 4], []⟩
  atomic := ⟨15, .updateAtomic "flows" 1, [2, 0, 1], []⟩

theorem counterHandler_walk {mnemonic : String} {w : List Leg}
    (h : (counterHandler mnemonic).Walk 0 w) : w = [(0, [])] := by
  cases h with
  | stop => rfl
  | go hedge => cases hedge

/-- The addition is executed with the entry that was looked up. -/
theorem counterHandler_writesSame (inputs : List Int) (cells : Cell → Int → Int) :
    (counterHandler "add").WritesSame (counterMatch "add") intInterp inputs cells := by
  rintro w front s o ⟨hw, _, hs⟩ hnext hstore _
  obtain rfl := counterHandler_walk hw
  obtain ⟨rest, hcode⟩ := hnext
  have hfront : front = ((counterHandler "add").code [(0, [])]).take 3 := by
    have hidx : ∀ n, ((counterHandler "add").code [(0, [])])[n]? = some (.op o) → n = 3 := by
      intro n hn
      match n with
      | 0 | 1 | 2 =>
        cases hn
        cases hstore
      | 3 => rfl
      | n + 4 => cases hn
    rw [← hidx front.length (by rw [← hcode]; simp), ← hcode]
    simp
  subst hfront
  cases hs
  exact Or.inl ⟨rfl, (add_sub_cancel_right _ _).symm⟩

/-- The addition becomes an atomic update, and the lookup is erased. -/
theorem atomicIdentification_tables_counter :
    (counterHandler "add").AgreesThroughout (counterMatch "add") intInterp [5, 7] (fun _ _ => 10) ∧
    ∃ g, SafeSteps intInterp [5, 7] (fun _ _ => 10) (counterHandler "add") g ∧
      (g.opsOf 0).map (fun o => o.inner.kind) = [.globalImport "flows", .updateAtomic "flows" 1] ∧
      ∀ out, (∃ n, (counterHandler "add").leaves intInterp.toInterp n [5, 7] (fun _ _ => 10) =
        some out) ↔ ∃ n, g.leaves intInterp.toInterp n [5, 7] (fun _ _ => 10) = some out := by
  have hload : .plain ⟨11, .lookup "flows", [2, 0], [(3, .int 64)]⟩ ∈
      (counterHandler "add").walk := by decide
  have hmatch : (counterHandler "add").matchLoad ⟨11, .lookup "flows", [2, 0], [(3, .int 64)]⟩ =
      some (counterMatch "add") := by decide
  have hsteps : SafeSteps intInterp [5, 7] (fun _ _ => 10) (counterHandler "add")
      (((counterHandler "add").replaceMatch (counterMatch "add")).eraseDead
        ⟨11, .lookup "flows", [2, 0], [(3, .int 64)]⟩) :=
    .replace hload hmatch (counterHandler_writesSame _ _) (.erase (by decide) .done)
  have htabs := atomicIdentification_tables (counterHandler "add") intInterp [5, 7] fun _ _ => 10
  exact ⟨(htabs.1 _ _ hload hmatch).mpr (counterHandler_writesSame _ _), _, hsteps, by decide,
    htabs.2 _ hsteps⟩

/-- A subtraction becomes an atomic addition as well: 10 - 7 is stored before the
replacement, 10 + 7 after it. -/
theorem atomicRewrite_subtracts :
    ∃ g, (counterHandler "sub").atomicRewrite ⟨11, .lookup "flows", [2, 0], [(3, .int 64)]⟩ =
        some g ∧
      ((counterHandler "sub").leaves intInterp.toInterp 1 [5, 7] fun _ _ => 10).map
        (fun out => out.2 (.table "flows") 5) = some 3 ∧
      (g.leaves intInterp.toInterp 1 [5, 7] fun _ _ => 10).map
        (fun out => out.2 (.table "flows") 5) = some 17 := by
  refine ⟨(counterHandler "sub").replaceMatch (counterMatch "sub"), by decide, ?_, ?_⟩
  · decide
  · decide

end Counter

end Alkali.FuncOp
