import Alkali.MLIRGen.Expressions

/-!
# The results of a conditional

A conditional yields the variables that its branches assign. The update table
of a branch also records variables that the branch declares itself; these are
gone when the results are created.
-/

namespace Alkali

open Fallible List GenState

section Tables

variable {st : GenState} {source dest thenTable elseTable : UpdateTable}

theorem find_mergeTable (k : String) : (mergeTable st source dest).find k =
    (dest.find k).or (if k ∈ source.keys then some ((st.value? k).getD .nopOp) else none) := by
  have hlk : ∀ keys : List String, (keys.map fun k => (k, (st.value? k).getD .nopOp)).lookup k =
        if k ∈ keys then some ((st.value? k).getD .nopOp) else none := by
    intro keys
    induction keys with
    | nil => rfl
    | cons j keys ih =>
      rw [map_cons, lookup_cons, ih]
      by_cases h : k = j
      · simp [h]
      · simp [h, beq_false_of_ne h]
  rw [mergeTable, OrderedMap.find_insertMissing, hlk]

variable {k : String} {cond : SsaValue} {st' : GenState}

theorem mem_keys_mergeTable :
    k ∈ (mergeTable st source dest).keys ↔ k ∈ dest.keys ∨ k ∈ source.keys := by
  simp [mergeTable, OrderedMap.mem_keys_insertMissing, Function.comp_def]

/-- The variables that a conditional updates. -/
def resultKeys (st : GenState) (thenTable elseTable : UpdateTable) : List String :=
  (mergeTable st (mergeTable st thenTable elseTable) thenTable).keys

theorem mem_resultKeys :
    k ∈ resultKeys st thenTable elseTable ↔ k ∈ thenTable.keys ∨ k ∈ elseTable.keys := by
  simp only [resultKeys, mem_keys_mergeTable]
  tauto

/-- The operation that the branches and their update tables give. -/
def ifOpOf (st : GenState) (cond : SsaValue) (thenTable elseTable : UpdateTable)
    (types : List Ty) : IfOp where
  types := types
  cond := cond
  thenYields := (resultKeys st thenTable elseTable).filterMap
    (mergeTable st (mergeTable st thenTable elseTable) thenTable).find
  elseYields := (resultKeys st thenTable elseTable).filterMap
    (mergeTable st thenTable elseTable).find

theorem genIfOp_eq_ok : genIfOp st cond thenTable elseTable = .ok st' ↔
      ∃ types, (resultKeys st thenTable elseTable).mapM st.type? = some types ∧
        { st with ifOps := st.ifOps ++ [ifOpOf st cond thenTable elseTable types] }.updateAll
          st.ifOps.length ((resultKeys st thenTable elseTable).zip (types.zipIdx.map Prod.swap)) =
            .ok st' := by
  unfold genIfOp
  simp only
  split
  · next hnone => simp [resultKeys, hnone]
  · next types hsome =>
      simp only [resultKeys, hsome, Option.some.injEq, exists_eq_left']
      rfl

/-- Binding results of the right types to visible variables succeeds and assigns them. -/
theorem evolves_updateAll {structMap : StructMap} (htyped : st.Typed structMap) (id : Nat)
    {results : List (String × Nat × Ty)}
    (htypes : ∀ x i ty, (x, i, ty) ∈ results → st.type? x = some ty) :
    ∃ st', st.updateAll id results = .ok st' ∧ st'.ifOps = st.ifOps ∧ Evolves structMap st st'
      (results.map fun result => ⟨result.1, [], .ifOp id result.2.1 result.2.2⟩) [] := by
  induction results generalizing st with
  | nil => exact ⟨st, rfl, rfl, .of_eq htyped rfl rfl⟩
  | cons result results ih =>
    obtain ⟨x, i, ty⟩ := result
    obtain ⟨entry, hent, hty⟩ := Option.map_eq_some_iff.mp (htypes x i ty (by simp))
    obtain ⟨st₁, hst₁, hifs⟩ : ∃ st₁, st.update x (.ifOp id i ty) = .ok st₁ ∧
        st₁.ifOps = st.ifOps := by
      have hcast : tryCast (.ifOp id i ty) entry.type = .ok (.ifOp id i ty) :=
        hty ▸ tryCast_type (.ifOp id i ty)
      simp only [update, hent, hcast]
      exact ⟨_, rfl, rfl⟩
    have hfirst := evolves_update_of_type htyped (by
      intro entry' hent'
      rw [hent] at hent'
      cases hent'
      exact hty.symm) hst₁
    obtain ⟨st', hst', hifs', hrest⟩ := ih hfirst.typed (by
      intro y j ty' hmem
      obtain ⟨entry', hent', hty'⟩ := Option.map_eq_some_iff.mp (htypes y j ty' (by simp [hmem]))
      obtain ⟨v, hv⟩ := hfirst.exists_entry hent'
      rw [type?, hv]
      exact congrArg some hty')
    exact ⟨st', bind_eq_ok.mpr ⟨st₁, hst₁, hst'⟩, hifs'.trans hifs, hfirst.trans hrest⟩

theorem zip_zipIdx {keys : List String} {types : List Ty}
    (htypes : types.map some = keys.map st.type?) (n : Nat) :
    keys.zip ((types.zipIdx n).map Prod.swap) =
      (keys.zipIdx n).map fun (x, i) => (x, i, (st.type? x).getD .none) := by
  induction keys generalizing types n with
  | nil => rfl
  | cons x keys ih =>
    cases types with
    | nil => cases htypes
    | cons ty types =>
      obtain ⟨hty, htypes⟩ := cons.inj htypes
      simp only [zipIdx_cons, map_cons, Prod.swap_prod_mk, zip_cons_cons, ih htypes, ← hty,
        Option.getD_some]

theorem names_ifWrites (id : Nat) (keys : List String) :
    (ifWrites st id keys).map VarWrite.name = keys := by
  rw [ifWrites, map_map]
  exact zipIdx_map_fst 0 keys

/-- A conditional over visible variables is created, and assigns its results. -/
theorem evolves_genIfOp {structMap : StructMap} (htyped : st.Typed structMap) (cond : SsaValue)
    {types : List Ty}
    (htypes : types.map some = (resultKeys st thenTable elseTable).map st.type?) :
    ∃ after, genIfOp st cond thenTable elseTable = .ok after ∧
      after.ifOps = st.ifOps ++ [ifOpOf st cond thenTable elseTable types] ∧
      Evolves structMap st after
        (ifWrites st st.ifOps.length (resultKeys st thenTable elseTable)) [] := by
  have hemit : Evolves structMap st
      { st with ifOps := st.ifOps ++ [ifOpOf st cond thenTable elseTable types] } [] [] :=
    .of_eq htyped rfl rfl
  have hresults : ∀ x i ty, (x, i, ty) ∈ (resultKeys st thenTable elseTable).zipIdx.map
      (fun (x, i) => (x, i, (st.type? x).getD .none)) → st.type? x = some ty := by
    intro x i ty hmem
    obtain ⟨⟨_, _⟩, hx, heq⟩ := mem_map.mp hmem
    cases heq
    have htype := mem_map_of_mem (f := st.type?) (mem_of_getElem? (mem_zipIdx_iff_getElem?.mp hx))
    rw [← htypes] at htype
    obtain ⟨ty, -, hty⟩ := mem_map.mp htype
    rw [← hty, Option.getD_some]
  obtain ⟨after, hafter, hifs, hev⟩ := evolves_updateAll hemit.typed st.ifOps.length hresults
  rw [← zip_zipIdx htypes 0] at hafter
  rw [map_map] at hev
  exact ⟨after, genIfOp_eq_ok.mpr ⟨types, mapM_eq_some_iff.mpr htypes, hafter⟩, hifs,
    hemit.trans hev⟩

/-- A result is the last assignment to its variable. -/
theorem assignAll_ifWrites (structMap : StructMap) {keys : List String} (hnd : keys.Nodup)
    {i : Nat} (hk : keys[i]? = some k) (id : Nat) {entry : Entry}
    (hent : st.symbolTable.lookup k = some entry) :
    entry.assignAll structMap k (ifWrites st id keys) =
      { entry with value := .ifOp id i entry.type } := by
  have hone : (keys.zipIdx.filter fun y => y.1 = k) = [(k, i)] := by
    have hnodup : keys.zipIdx.Nodup := .of_map Prod.fst (by rwa [zipIdx_map_fst])
    refine perm_singleton.mp ((perm_ext_iff_of_nodup (hnodup.filter _) (nodup_singleton _)).mpr ?_)
    rintro ⟨x, j⟩
    simp only [mem_filter, mem_zipIdx_iff_getElem?, decide_eq_true_eq, mem_singleton,
      Prod.mk.injEq]
    constructor
    · rintro ⟨hx, rfl⟩
      exact ⟨rfl, (getElem?_inj (List.getElem?_eq_some_iff.mp hx).1 hnd).mp (hx.trans hk.symm)⟩
    · rintro ⟨rfl, rfl⟩
      exact ⟨hk, rfl⟩
  have htype : st.type? k = some entry.type := by simp [type?, hent]
  have hconv : (SsaValue.ifOp id i entry.type).convertTo entry.type = .ifOp id i entry.type :=
    SsaValue.convertTo_of_type rfl
  simp [Entry.assignAll, ifWrites, filter_map, Function.comp_def, hone, htype, Entry.assign,
    declaredSteps, SsaValue.setPath, endType, hconv]

end Tables

theorem mem_resultNames {before : GenState} {names : List String} {x : String} :
    x ∈ resultNames before names ↔ before.symbolTable.lookup x ≠ none ∧ x ∈ names := by
  simp [resultNames, Option.isSome_iff_ne_none, and_comm]

theorem pairwise_resultNames (before : GenState) (names : List String) :
    (resultNames before names).Pairwise (· < ·) := by
  have hle := pairwise_insertionSort (· ≤ ·)
    ((names.filter fun x => (before.symbolTable.lookup x).isSome).dedup)
  have hnodup : (resultNames before names).Nodup :=
    (perm_insertionSort _ _).nodup_iff.mpr (nodup_dedup _)
  exact hle.imp₂ (fun _ _ hle hne => lt_of_le_of_ne hle hne) hnodup

section Branches

variable {structMap : StructMap} {st branchEnd : GenState} {log : List VarWrite} {D : List String}

section

variable (h : Evolves structMap st.enterBranch branchEnd log D)
include h

/-- After a branch the symbol table and the outer update tables are as before. -/
theorem Evolves.leaveBranch : branchEnd.leaveBranch.symbolTable = st.symbolTable ∧
      branchEnd.leaveBranch.updateTables = st.updateTables := by
  obtain ⟨top, htop, _⟩ := h.tables
  refine ⟨h.scopes, ?_⟩
  simp [GenState.leaveBranch, htop]

/-- The update table of a branch has the final values of the assigned variables. -/
theorem Evolves.find_updateTable (x : String) : branchEnd.updateTable.find x =
    if x ∈ log.map VarWrite.name then branchEnd.value? x else none := by
  obtain ⟨top, htop, hfind⟩ := h.tables
  rw [updateTable, htop]
  exact hfind x

theorem Evolves.mem_updateTable {x : String} :
    x ∈ branchEnd.updateTable.keys ↔ x ∈ log.map VarWrite.name := by
  rw [← not_iff_not, ← OrderedMap.find_eq_none_iff, h.find_updateTable]
  by_cases hx : x ∈ log.map VarWrite.name
  · simp [hx, value?, h.visible x hx]
  · simp [hx]

end

theorem GenState.Typed.enterBranch (h : st.Typed structMap) : st.enterBranch.Typed structMap := h

theorem GenState.Typed.of_symbolTable {st' : GenState} (h : st.Typed structMap)
    (hsyms : st'.symbolTable = st.symbolTable) : st'.Typed structMap := by
  intro x
  rw [hsyms]
  exact h x

section

variable {thenEnd elseEnd : GenState} {thenLog elseLog : List VarWrite} {Dt De : List String}
  (ht : Evolves structMap st.enterBranch thenEnd thenLog Dt)
  (he : Evolves structMap thenEnd.leaveBranch.enterBranch elseEnd elseLog De)
include ht he

/-- Both branches, one after the other. -/
theorem Evolves.branches : elseEnd.leaveBranch.symbolTable = st.symbolTable ∧
      elseEnd.leaveBranch.updateTables = st.updateTables ∧
      ∀ x, x ∈ resultKeys elseEnd.leaveBranch thenEnd.updateTable elseEnd.updateTable ↔
        x ∈ (thenLog ++ elseLog).map VarWrite.name := by
  obtain ⟨hsyms, htabs⟩ := ht.leaveBranch
  obtain ⟨hsyms', htabs'⟩ := he.leaveBranch
  refine ⟨hsyms'.trans hsyms, htabs'.trans htabs, ?_⟩
  intro x
  rw [mem_resultKeys, ht.mem_updateTable, he.mem_updateTable, map_append, mem_append]

/-- The keys of the conditional are the assigned variables from before it. -/
theorem Evolves.resultKeys_eq {types : List Ty} (htypes :
      (resultKeys elseEnd.leaveBranch thenEnd.updateTable elseEnd.updateTable).mapM
        elseEnd.leaveBranch.type? = some types) :
    resultKeys elseEnd.leaveBranch thenEnd.updateTable elseEnd.updateTable =
      resultNames st ((thenLog ++ elseLog).map VarWrite.name) := by
  obtain ⟨hsyms, _, hmem⟩ := ht.branches he
  have hsorted : (resultKeys elseEnd.leaveBranch thenEnd.updateTable
      elseEnd.updateTable).Pairwise (· < ·) := OrderedMap.sorted _
  refine hsorted.eq_of_mem_iff (pairwise_resultNames ..) fun x => ?_
  rw [mem_resultNames, ← hmem]
  refine ⟨fun hx => ⟨fun hnone => ?_, hx⟩, And.right⟩
  have htype := mem_map_of_mem (f := elseEnd.leaveBranch.type?) hx
  rw [← mapM_eq_some_iff.mp htypes, type?, hsyms, hnone] at htype
  simp at htype

end

end Branches

section Statements

variable {structMap : StructMap} {st : GenState}

theorem Stmt.generated_eq {s : Stmt} {st' : GenState} (h : genStmt structMap s st = .ok st') :
    s.generated structMap st = st' := by
  rw [generated, h]
  rfl

theorem branchEnd_eq {stmts : List Stmt} {st' : GenState}
    (h : genStmts structMap stmts st.enterBranch = .ok st') :
    branchEnd structMap stmts st = st' := by
  rw [branchEnd, h]
  rfl

mutual

/-- Generating a statement makes its assignments. -/
theorem evolves_genStmt (hm : structMap.WellFormed) : ∀ {s : Stmt} {st st' : GenState},
    st.Typed structMap → s.WellAssigned structMap st → genStmt structMap s st = .ok st' →
      Evolves structMap st st' (s.writes structMap st) s.declared
  | .decl name type init, st, st', htyped, hwell, h => evolves_genDecl hm htyped hwell h
  | .ret none, st, st', htyped, _, h => by
    cases h
    exact .of_eq htyped rfl rfl
  | .expr e, st, st', htyped, hwell, h | .ret (some e), st, st', htyped, hwell, h => by
    obtain ⟨⟨value, st₁⟩, he, h⟩ := bind_eq_ok.mp h
    cases h
    exact evolves_genExpr hm htyped hwell he
  | .ifElse cond thenExprs elseExprs, st, st', htyped, hwell, h => by
    obtain ⟨⟨c, before⟩, hcond, h⟩ := bind_eq_ok.mp h
    obtain ⟨thenEnd, hthen, h⟩ := bind_eq_ok.mp h
    obtain ⟨elseEnd, helse, h⟩ := bind_eq_ok.mp h
    simp only [Stmt.WellAssigned, Expr.generated_eq hcond, branchEnd_eq hthen] at hwell
    simp only [Stmt.writes, Expr.generated_eq hcond, branchEnd_eq hthen, branchEnd_eq helse]
    obtain ⟨hwc, hwt, hwe⟩ := hwell
    have hev := evolves_genExpr hm htyped hwc hcond
    have ht := evolves_genStmts hm hev.typed.enterBranch hwt hthen
    have he := evolves_genStmts hm (hev.typed.of_symbolTable ht.leaveBranch.1).enterBranch hwe helse
    obtain ⟨hsyms, htabs, _⟩ := ht.branches he
    have hout := hev.trans (.of_eq hev.typed hsyms htabs)
    obtain ⟨types, htypes, _⟩ := genIfOp_eq_ok.mp h
    obtain ⟨after, hafter, -, hif⟩ := evolves_genIfOp hout.typed c (mapM_eq_some_iff.mp htypes)
    cases h.symm.trans hafter
    have hwrites : ifWrites elseEnd.leaveBranch = ifWrites before := by
      funext id names
      simp [ifWrites, type?, hsyms]
    rw [ht.resultKeys_eq he htypes, hwrites] at hif
    have hall := hout.trans hif
    rw [append_nil] at hall
    exact hall

theorem evolves_genStmts (hm : structMap.WellFormed) : ∀ {stmts : List Stmt}
    {st st' : GenState}, st.Typed structMap → WellAssignedIn structMap stmts st →
      genStmts structMap stmts st = .ok st' →
        Evolves structMap st st' (writesIn structMap stmts st) (declaredIn stmts)
  | [], st, st', htyped, _, h => by
    cases h
    exact .of_eq htyped rfl rfl
  | s :: rest, st, st', htyped, hwell, h => by
    obtain ⟨st₁, hs, h⟩ := bind_eq_ok.mp h
    rw [WellAssignedIn, Stmt.generated_eq hs] at hwell
    rw [writesIn, Stmt.generated_eq hs]
    have hev := evolves_genStmt hm htyped hwell.1 hs
    exact hev.trans (evolves_genStmts hm hev.typed hwell.2 h)

end

end Statements

/-- The value of a variable after a list of assignments. -/
def finalValue (structMap : StructMap) (before : GenState) (log : List VarWrite) (x : String) :
    Option SsaValue :=
  (before.symbolTable.lookup x).map fun entry => (entry.assignAll structMap x log).value

/-- The results of a conditional are the variables of the enclosing scope that a
branch assigns, with their types. A branch yields the value of a variable after its
assignments, which is the value before the conditional if there are none.
Afterwards the variables denote the results. -/
structure IfResults (structMap : StructMap) (cond : SsaValue) (thenLog elseLog : List VarWrite)
    (before elseEnd after : GenState) (keys : List String) (op : IfOp) : Prop where
  sorted : keys.Pairwise (· < ·)
  mem_keys : ∀ x, x ∈ keys ↔
    before.symbolTable.lookup x ≠ none ∧ x ∈ (thenLog ++ elseLog).map VarWrite.name
  emitted : after.ifOps = elseEnd.ifOps ++ [op]
  cond : op.cond = cond
  types : op.types.map some = keys.map before.type?
  thenYields : op.thenYields.map some = keys.map (finalValue structMap before thenLog)
  elseYields : op.elseYields.map some = keys.map (finalValue structMap before elseLog)
  thenTypes : op.thenYields.map SsaValue.type = op.types
  elseTypes : op.elseYields.map SsaValue.type = op.types
  results : ∀ i x, keys[i]? = some x → after.symbolTable.lookup x =
    (before.symbolTable.lookup x).map fun e =>
      { e with value := .ifOp elseEnd.ifOps.length i e.type }
  others : ∀ x, x ∉ keys → after.symbolTable.lookup x = before.symbolTable.lookup x

section Yields

variable {structMap : StructMap} {st outer branchEnd : GenState} {log : List VarWrite}
  {D keys : List String} (h : Evolves structMap st.enterBranch branchEnd log D)
  (hvisible : ∀ x ∈ keys, st.symbolTable.lookup x ≠ none)
include h hvisible

theorem Evolves.lookup_branchEnd {x : String} (hx : x ∈ keys) : branchEnd.symbolTable.lookup x =
    (st.symbolTable.lookup x).map (Entry.assignAll structMap x log) :=
  h.lookup x fun hD => hvisible x hx (h.fresh x hD).1

/-- What a branch yields. -/
theorem Evolves.map_yields (source : UpdateTable) (houter : outer.symbolTable = st.symbolTable)
    (hkeys : ∀ x ∈ keys, x ∈ log.map VarWrite.name ∨ x ∈ source.keys) :
    (keys.filterMap (mergeTable outer source branchEnd.updateTable).find).map some =
      keys.map (finalValue structMap st log) := by
  have hfind : ∀ x ∈ keys, (mergeTable outer source branchEnd.updateTable).find x =
      finalValue structMap st log x := by
    intro x hx
    obtain ⟨entry, hent⟩ := Option.ne_none_iff_exists'.mp (hvisible x hx)
    have hlookup := h.lookup_branchEnd hvisible hx
    rw [hent] at hlookup
    rw [find_mergeTable, h.find_updateTable]
    by_cases hA : x ∈ log.map VarWrite.name
    · simp [hA, finalValue, value?, hlookup, hent]
    · have hsame : entry.assignAll structMap x log = entry :=
        Option.some.inj (map_assignAll_of_notMem hA (some entry))
      simp [hA, (hkeys x hx).resolve_left hA, finalValue, value?, houter, hent, hsame]
  rw [map_some_filterMap fun x hx => by
    rw [hfind x hx]
    simpa [finalValue] using hvisible x hx]
  exact map_congr_left hfind

/-- The yielded values have the types of the variables. -/
theorem Evolves.type_yields {yields : List SsaValue} {types : List Ty}
    (hyields : yields.map some = keys.map (finalValue structMap st log))
    (htypes : types.map some = keys.map st.type?) : yields.map SsaValue.type = types := by
  refine map_injective_iff.mpr (Option.some_injective _) ?_
  calc (yields.map SsaValue.type).map some
      = (yields.map some).map (Option.map SsaValue.type) := by simp
    _ = keys.map st.type? := by
        rw [hyields, map_map]
        refine map_congr_left fun x hx => ?_
        obtain ⟨entry, hent⟩ := Option.ne_none_iff_exists'.mp (hvisible x hx)
        obtain ⟨v, hv⟩ := entry.exists_assignAll structMap x log
        have hlookup := h.lookup_branchEnd hvisible hx
        rw [hent, Option.map_some, hv] at hlookup
        have htype := (h.typed x _ hlookup).value_type
        simpa [finalValue, type?, hent, hv] using htype
    _ = types.map some := htypes.symm

end Yields

/-- A conditional whose branches are generated, with assignments that the generator
gets right, has the right results exactly if no branch assigns a variable that it
declares itself. -/
theorem genStmt_ifElse_iff {structs : List StructAST} {structMap : StructMap} {cond : Expr}
    {thenExprs elseExprs : List Stmt} {st before thenEnd elseEnd : GenState} {c : SsaValue}
    (hstructs : genStructs structs = .ok structMap)
    (hcond : genExpr structMap cond st = .ok (c, before))
    (hthen : genStmts structMap thenExprs before.enterBranch = .ok thenEnd)
    (helse : genStmts structMap elseExprs thenEnd.leaveBranch.enterBranch = .ok elseEnd)
    (htyped : before.Typed structMap)
    (hthenWell : WellAssignedIn structMap thenExprs before.enterBranch)
    (helseWell : WellAssignedIn structMap elseExprs thenEnd.leaveBranch.enterBranch) :
    (∃ after keys op, genStmt structMap (.ifElse cond thenExprs elseExprs) st = .ok after ∧
        IfResults structMap c (writesIn structMap thenExprs before.enterBranch)
          (writesIn structMap elseExprs thenEnd.leaveBranch.enterBranch)
          before elseEnd after keys op) ↔
      (∀ w ∈ writesIn structMap thenExprs before.enterBranch, w.name ∉ declaredIn thenExprs) ∧
        ∀ w ∈ writesIn structMap elseExprs thenEnd.leaveBranch.enterBranch,
          w.name ∉ declaredIn elseExprs := by
  have hm := genStructs_wellFormed hstructs
  have ht := evolves_genStmts hm htyped.enterBranch hthenWell hthen
  have hmid := ht.leaveBranch.1
  have he := evolves_genStmts hm (htyped.of_symbolTable hmid).enterBranch helseWell helse
  obtain ⟨hsyms, _, hmem⟩ := ht.branches he
  have hgen : ∀ after, genStmt structMap (.ifElse cond thenExprs elseExprs) st = .ok after ↔
        genIfOp elseEnd.leaveBranch c thenEnd.updateTable elseEnd.updateTable = .ok after := by
    intro after
    rw [genStmt, hcond]
    simp only [bind, Except.bind, hthen, helse]
  have htype : ∀ x, elseEnd.leaveBranch.type? x = before.type? x := by
    intro x
    rw [type?, hsyms, type?]
  constructor
  · rintro ⟨after, _, _, hafter, _⟩
    obtain ⟨types, htypes, _⟩ := genIfOp_eq_ok.mp ((hgen after).mp hafter)
    have hvisible : ∀ w ∈ writesIn structMap thenExprs before.enterBranch ++
        writesIn structMap elseExprs thenEnd.leaveBranch.enterBranch,
        before.symbolTable.lookup w.name ≠ none := by
      intro w hw
      have hkey := (hmem w.name).mpr (mem_map_of_mem hw)
      rw [ht.resultKeys_eq he htypes] at hkey
      exact (mem_resultNames.mp hkey).1
    refine ⟨fun w hw hD => hvisible w (mem_append_left _ hw) (ht.fresh _ hD).1,
      fun w hw hD => hvisible w (mem_append_right _ hw) ?_⟩
    rw [← hmid]
    exact (he.fresh _ hD).1
  · rintro ⟨hthenOk, helseOk⟩
    have hvisible : ∀ x ∈ resultKeys elseEnd.leaveBranch thenEnd.updateTable
        elseEnd.updateTable, before.symbolTable.lookup x ≠ none := by
      intro x hx
      have hw := (hmem x).mp hx
      rw [map_append, mem_append] at hw
      rcases hw with hw | hw
      · obtain ⟨w, hw', rfl⟩ := mem_map.mp hw
        exact (ht.lookup_eq_none_iff (hthenOk w hw')).not.mp (ht.visible _ hw)
      · obtain ⟨w, hw', rfl⟩ := mem_map.mp hw
        have hvis := (he.lookup_eq_none_iff (helseOk w hw')).not.mp (he.visible _ hw)
        rwa [enterBranch, ScopedTable.lookup_enter, hmid] at hvis
    obtain ⟨types, htypes⟩ : ∃ types : List Ty, types.map some = (resultKeys elseEnd.leaveBranch
        thenEnd.updateTable elseEnd.updateTable).map elseEnd.leaveBranch.type? := by
      refine ⟨_, map_some_filterMap fun x hx => ?_⟩
      simpa [type?, hsyms] using hvisible x hx
    obtain ⟨after, hafter, hifs, hif⟩ := evolves_genIfOp (htyped.of_symbolTable hsyms) c htypes
    rw [funext htype] at htypes
    have hbranch : ∀ x ∈ resultKeys elseEnd.leaveBranch thenEnd.updateTable elseEnd.updateTable,
        x ∈ thenEnd.updateTable.keys ∨ x ∈ elseEnd.updateTable.keys := fun x =>
      mem_resultKeys.mp
    have hthenYields := ht.map_yields hvisible
      (mergeTable elseEnd.leaveBranch thenEnd.updateTable elseEnd.updateTable) hsyms
      fun x hx => (hbranch x hx).imp ht.mem_updateTable.mp fun hx =>
        mem_keys_mergeTable.mpr (Or.inl hx)
    have helseYields := he.map_yields (hmid ▸ hvisible) thenEnd.updateTable
      (hsyms.trans hmid.symm) fun x hx => (hbranch x hx).symm.imp_left he.mem_updateTable.mp
    have helseTypes := he.type_yields (hmid ▸ hvisible) helseYields
      (htypes.trans (by simp [type?, hmid]))
    refine ⟨after, _, _, (hgen after).mpr hafter, OrderedMap.sorted _, ?_, hifs, rfl, htypes,
      hthenYields, helseYields.trans (map_congr_left fun x _ => by rw [finalValue, hmid]; rfl),
      ht.type_yields hvisible hthenYields htypes, helseTypes, ?_, ?_⟩
    · intro x
      rw [← hmem]
      exact ⟨fun hx => ⟨hvisible x hx, hx⟩, And.right⟩
    · intro i x hx
      rw [hif.lookup x (by simp), hsyms]
      refine Option.map_congr fun entry hent => ?_
      exact assignAll_ifWrites structMap (OrderedMap.nodup_keys _) hx _ (hsyms ▸ hent)
    · intro x hx
      rw [hif.same (by rwa [names_ifWrites]) (by simp), hsyms]

/-- Two variables of type `int` and a context are declared. -/
def twoInts : GenState where
  symbolTable := ⟨[[("y", ⟨.initOp (.int 32), .int 32, .mk "int" []⟩),
    ("x", ⟨.initOp (.int 32), .int 32, .mk "int" []⟩),
    ("ctx", ⟨.blockArg 0 .context, .context, .mk "context" []⟩)]]⟩
  updateTables := []
  next := 0
  stores := []
  ifOps := []

/-- `int z = x; if (y) { x = z; } ctx.name = x;` -/
def copyInNested : List Stmt :=
  [.decl "z" (.mk "int" []) (some (.path "x" [])),
    .ifElse (.path "y" []) [.expr (.assign (.path "x" []) (.path "z" []))] [],
    .expr (.assign (.path "ctx" ["name"]) (.path "x" []))]

/-- `y = 1;` -/
def setOther : List Stmt := [.expr (.assign (.path "y" []) (.num 1))]

def copyInNestedEnd : GenState := branchEnd [] copyInNested twoInts

def setOtherEnd : GenState := branchEnd [] setOther copyInNestedEnd.leaveBranch

theorem twoInts_typed : twoInts.Typed [] := by
  intro x entry h
  have hmem : entry ∈ [⟨.initOp (.int 32), .int 32, .mk "int" []⟩,
      ⟨.blockArg 0 .context, .context, .mk "context" []⟩] := by
    simp only [twoInts, ScopedTable.lookup, flatten_cons, flatten_nil, append_nil, lookup_cons] at h
    repeat' split at h
    all_goals simp_all
  rcases mem_cons.mp hmem with rfl | hmem
  · exact ⟨rfl, Or.inr rfl⟩
  · obtain rfl := mem_singleton.mp hmem
    exact ⟨rfl, Or.inr rfl⟩

theorem genStmt_ifElse_nested : ∃ after keys op,
    genStmt [] (.ifElse (.path "x" []) copyInNested setOther) twoInts = .ok after ∧
      IfResults [] (.initOp (.int 32)) (writesIn [] copyInNested twoInts.enterBranch)
        (writesIn [] setOther copyInNestedEnd.leaveBranch.enterBranch)
        twoInts setOtherEnd after keys op := by
  have hstructs : genStructs [] = .ok [] := rfl
  have hcond : genExpr [] (.path "x" []) twoInts = .ok (.initOp (.int 32), twoInts) := rfl
  have hthen : genStmts [] copyInNested twoInts.enterBranch = .ok copyInNestedEnd := rfl
  have helse : genStmts [] setOther copyInNestedEnd.leaveBranch.enterBranch = .ok setOtherEnd := rfl
  refine (genStmt_ifElse_iff hstructs hcond hthen helse twoInts_typed ?_ ?_).mpr ⟨?_, ?_⟩
  · exact ⟨trivial, ⟨trivial, ⟨⟨trivial, trivial, rfl, Or.inl rfl⟩, trivial⟩, trivial⟩,
      ⟨trivial, trivial, Or.inl rfl⟩, trivial⟩
  · exact ⟨⟨trivial, trivial, rfl, Or.inr ⟨rfl, rfl⟩⟩, trivial⟩
  · decide
  · decide

/-- `int z; z = 1;` -/
def setLocal : List Stmt :=
  [.decl "z" (.mk "int" []) none, .expr (.assign (.path "z" []) (.num 1))]

/-- `x = h.src; x = 1;` -/
def setCopied : List Stmt :=
  [.expr (.assign (.path "x" []) (.path "h" ["src"])), .expr (.assign (.path "x" []) (.num 1))]

/-- A struct and a variable of type `int` are declared. -/
def headerAndInt : GenState where
  symbolTable := ⟨[[("x", ⟨.initOp (.int 32), .int 32, .mk "int" []⟩), ("h", headerEntry)]]⟩
  updateTables := []
  next := 0
  stores := []
  ifOps := []

/-- A branch that assigns its own variable aborts. One that assigns a variable twice,
first with a field, yields a struct for an integer. -/
theorem genStmt_ifElse_setLocal :
    (∃ thenEnd, genStmts [] setLocal twoInts.enterBranch = .ok thenEnd) ∧
      genStmt [] (.ifElse (.path "x" []) setLocal []) twoInts =
        .error (.abort "IfOp: unexpected null result type") ∧
      (genStmt packetMap (.ifElse (.path "x" []) setCopied []) headerAndInt).toOption.map
          (fun st => st.ifOps.map fun op => (op.types, op.thenYields.map SsaValue.type)) =
        some [([.int 32], [headerType])] :=
  ⟨⟨_, rfl⟩, rfl, rfl⟩

end Alkali
