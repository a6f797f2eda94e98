import Alkali.MLIRGen.Simulation

/-!
# The generated values are the values of the variables

The symbol table and the store agree when a function is entered, and every safe
statement keeps the agreement.
-/

namespace Alkali

open Fallible List Option

section Steps

variable {D : Type} {M : ValueModel D} {structMap : StructMap} {st : GenState}
  {store store' : Store D}

section

variable (h : Agrees M structMap st store) (hm : structMap.WellFormed)
include h hm

theorem Agrees.exists_genDecl {name : String} {decl : VarType} {init : Option Expr}
    (hexec : execStmt M structMap store (.decl name decl init) = some store')
    (hsafe : SafeStmt M structMap store st (.decl name decl init)) :
    ∃ st', genDecl structMap name decl init st = .ok st' ∧ Agrees M structMap st' store' := by
  cases init with
  | none =>
    simp only [execStmt, bind_eq_bind, bind_eq_some_iff, toOption_eq_some] at hexec
    obtain ⟨type, htype, heq⟩ := hexec
    cases heq
    obtain ⟨st', hdeclare, hst'⟩ := h.exists_declare hsafe (.initOp type)
      ⟨nofun, getVarType_ne_contextRef hm htype⟩ (Or.inr htype)
    exact ⟨st', bind_eq_ok.mpr ⟨type, htype, hdeclare⟩, hst'⟩
  | some e =>
    simp only [execStmt, bind_eq_bind, bind_eq_some_iff, Prod.exists] at hexec
    obtain ⟨source, d, heval, type, htype, hexec⟩ := hexec
    obtain ⟨hnew, hsafeExpr, hsame⟩ := hsafe
    obtain ⟨v, hv, rfl, rfl, hrvalue, -⟩ := h.exists_genExpr hm heval hsafeExpr
    have hdecl : v.type = type ∧ (decl.name = "" ∨ getVarType structMap decl = .ok v.type) := by
      unfold initializedType at htype
      split_ifs at htype with hauto
      · exact ⟨some.inj htype, Or.inl hauto⟩
      · have hvar := hsame.resolve_left hauto
        rw [heval, htype] at hvar
        obtain rfl : v.type = type := some.inj hvar
        exact ⟨rfl, Or.inr (toOption_eq_some.mp htype)⟩
    obtain ⟨rfl, hdecl⟩ := hdecl
    rw [if_pos (.refl _), M.convert_self] at hexec
    cases hexec
    obtain ⟨st', hdeclare, hst'⟩ := h.exists_declare hnew v hrvalue hdecl
    refine ⟨st', bind_eq_ok.mpr ⟨(v, st), hv, ?_⟩, hst'⟩
    split_ifs with hauto
    · exact hdeclare
    · exact bind_eq_ok.mpr ⟨v.type, hdecl.resolve_left hauto, by rwa [if_pos rfl]⟩

theorem Agrees.exists_genAssign
    {l r : Expr} (hexec : execStmt M structMap store (.expr (.assign l r)) = some store')
    (hsafe : SafeStmt M structMap store st (.expr (.assign l r))) :
    ∃ value st', genExpr structMap (.assign l r) st = .ok (value, st') ∧
      Agrees M structMap st' store' := by
  cases l with
  | num | literal | binop | assign | extract | call | init => cases hsafe
  | path head fields =>
    simp only [execStmt, bind_eq_bind, bind_eq_some_iff, Prod.exists] at hexec
    obtain ⟨type, steps, hresolve, source, d, heval, hexec⟩ := hexec
    split_ifs at hexec with hassign
    cases hexec
    match fields with
    | [] =>
      obtain ⟨hrebind, hsafe, hblock⟩ := hsafe
      obtain ⟨decl, varType, hscope, hsteps, rfl⟩ := (Store.resolve_eq_some _).mp hresolve
      cases hsteps
      refine h.exists_assignVariable hm hscope heval hassign hrebind hsafe fun hb => ?_
      obtain ⟨entry, hent, hagr⟩ := h.entries head decl varType hscope
      have htype := hblock hb
      rw [heval, GenState.type?, hent] at htype
      exact (some.inj htype).trans hagr.type_eq
    | [field] =>
      refine h.exists_assignField hm hresolve heval hassign hsafe.1 (hsafe.2.imp_right ?_)
      rw [heval, hresolve]
      exact some.inj
    | _ :: _ :: _ => cases hsafe

theorem Agrees.exists_genExtract {caller : List String} {target : Expr}
    (hexec : execStmt M structMap store (.expr (.extract caller target)) = some store')
    (hsafe : SafeStmt M structMap store st (.expr (.extract caller target))) :
    ∃ value st', genExpr structMap (.extract caller target) st = .ok (value, st') ∧
      Agrees M structMap st' store' := by
  match caller, target with
  | caller :: callerFields, .path head [] =>
    simp only [execStmt, bind_eq_bind, bind_eq_some_iff, Prod.exists] at hexec
    obtain ⟨bufferType, buffer, heval, type, steps, hresolve, heq⟩ := hexec
    cases heq
    obtain ⟨decl, varType, hscope, hsteps, rfl⟩ := (Store.resolve_eq_some _).mp hresolve
    cases hsteps
    exact h.exists_extract hm hscope heval hsafe
  | [], _ | _ :: _, .path _ (_ :: _) | _ :: _, .num _ | _ :: _, .literal _ | _ :: _, .binop _ _ _
  | _ :: _, .assign _ _ | _ :: _, .extract _ _ | _ :: _, .call _ _ _ | _ :: _, .init _ _ =>
    cases hsafe

theorem Agrees.exists_genStmt {s : Stmt} (hexec : execStmt M structMap store s = some store')
    (hsafe : SafeStmt M structMap store st s) :
    ∃ st', genStmt structMap s st = .ok st' ∧ Agrees M structMap st' store' := by
  have hpure : ∀ {e}, (evalExpr M structMap store e).bind (fun _ => some store) = some store' →
      SafeExpr structMap st.symbolTable e →
      ∃ st', genStmt structMap (.expr e) st = .ok st' ∧ Agrees M structMap st' store' := by
    intro e hbind hsafe
    obtain ⟨⟨type, d⟩, heval, heq⟩ := bind_eq_some_iff.mp hbind
    cases heq
    obtain ⟨v, hv, _⟩ := h.exists_genExpr hm heval hsafe
    exact ⟨st, bind_eq_ok.mpr ⟨_, hv, rfl⟩, h⟩
  match s with
  | .decl name decl init => exact h.exists_genDecl hm hexec hsafe
  | .expr (.num n) => exact hpure hexec hsafe
  | .expr (.literal _) | .expr (.call _ _ _) | .expr (.init _ _) => cases hexec
  | .expr (.path head fields) => exact hpure hexec hsafe
  | .expr (.binop op l r) => exact hpure hexec hsafe
  | .expr (.assign l r) =>
    obtain ⟨value, st', hgen, h'⟩ := h.exists_genAssign hm hexec hsafe
    exact ⟨st', bind_eq_ok.mpr ⟨_, hgen, rfl⟩, h'⟩
  | .expr (.extract caller target) =>
    obtain ⟨value, st', hgen, h'⟩ := h.exists_genExtract hm hexec hsafe
    exact ⟨st', bind_eq_ok.mpr ⟨_, hgen, rfl⟩, h'⟩
  | .ret _ | .ifElse _ _ _ => cases hsafe

/-- Every prefix of safe straight-line code keeps the agreement. -/
theorem Agrees.exists_genStmts
    {body pre : List Stmt} (hexec : execStmts M structMap store body ≠ none)
    (hsafe : SafeRun M structMap store st body) (hpre : pre <+: body) :
    ∃ st' store', genStmts structMap pre st = .ok st' ∧
      execStmts M structMap store pre = some store' ∧ Agrees M structMap st' store' := by
  induction body generalizing st store pre with
  | nil =>
    rw [prefix_nil.mp hpre]
    exact ⟨st, store, rfl, rfl, h⟩
  | cons s rest ih =>
    cases pre with
    | nil => exact ⟨st, store, rfl, rfl, h⟩
    | cons s' pre =>
      obtain ⟨rfl, hrest⟩ := cons_prefix_cons.mp hpre
      obtain ⟨store₁, hstore₁⟩ : ∃ store₁, execStmt M structMap store s' = some store₁ := by
        cases hs : execStmt M structMap store s' with
        | none => simp [execStmts, hs] at hexec
        | some store₁ => exact ⟨store₁, rfl⟩
      obtain ⟨st₁, hst₁, h₁⟩ := h.exists_genStmt hm hstore₁ hsafe.1
      have hexec₁ : execStmts M structMap store₁ rest ≠ none := by
        simpa [execStmts, hstore₁] using hexec
      obtain ⟨st', store', hst', hstore', h'⟩ :=
        ih h₁ hexec₁ (hsafe.2 store₁ st₁ hstore₁ hst₁) hrest
      refine ⟨st', store', bind_eq_ok.mpr ⟨st₁, hst₁, hst'⟩, ?_, h'⟩
      simpa [execStmts, hstore₁] using hstore'

end

end Steps

section Entry

variable {D : Type} {structMap : StructMap}
variable {params : List (String × VarType)}

/-- The arguments are new names; afterwards each has its block argument. -/
theorem lookup_declareArgs {types : List Ty}
    (htypes : params.mapM (fun param => getVarType structMap param.2) = .ok types) {index : Nat}
    {st st' : GenState} (h : declareArgs params types index st = .ok st') :
    st'.next = st.next ∧ (∀ x ∈ params.map Prod.fst, st.symbolTable.lookup x = none) ∧
      (∀ x, x ∉ params.map Prod.fst → st'.symbolTable.lookup x = st.symbolTable.lookup x) ∧
      ∀ (k : Nat) (name : String) (decl : VarType), params[k]? = some (name, decl) →
        ∃ type, getVarType structMap decl = .ok type ∧ st'.symbolTable.lookup name =
          some ⟨.blockArg (index + k) type, type, decl⟩ := by
  induction params generalizing types index st with
  | nil =>
    cases h
    exact ⟨rfl, by simp, fun _ _ => rfl, by simp⟩
  | cons param params ih =>
    obtain ⟨name, decl⟩ := param
    rw [mapM_cons] at htypes
    obtain ⟨type, htype, htypes⟩ := bind_eq_ok.mp htypes
    obtain ⟨types, hrest, htypes⟩ := bind_eq_ok.mp htypes
    cases htypes
    obtain ⟨st₁, hdecl, h⟩ := bind_eq_ok.mp h
    obtain ⟨hnext, hfresh, hother, hargs⟩ := ih hrest h
    unfold GenState.declare at hdecl
    split at hdecl
    · cases hdecl
    · next hnew =>
        cases hdecl
        have hname : name ∉ params.map Prod.fst := by
          intro hmem
          have := hfresh name hmem
          simp at this
        refine ⟨hnext, ?_, ?_, ?_⟩
        · intro x hx
          rcases mem_cons.mp hx with rfl | hx
          · exact hnew
          · have hne : x ≠ name := fun hxn => hname (hxn ▸ hx)
            rw [← hfresh x hx, ScopedTable.lookup_insert_of_ne _ hne]
        · intro x hx
          simp only [map_cons, mem_cons, not_or] at hx
          rw [hother x hx.2, ScopedTable.lookup_insert_of_ne _ hx.1]
        · intro k name' decl' hk
          cases k with
          | zero =>
            cases hk
            refine ⟨type, htype, ?_⟩
            rw [hother name hname, ScopedTable.lookup_insert_self]
            rfl
          | succ k =>
            obtain ⟨type', htype', hlk⟩ := hargs k name' decl' hk
            refine ⟨type', htype', ?_⟩
            rw [hlk, Nat.add_assoc, Nat.add_comm 1]

theorem enterFunction_agrees (M : ValueModel D) (hm : structMap.WellFormed)
    {globals : SymbolTable} {st : GenState} (h : enterFunction structMap globals params = .ok st) :
    Agrees M structMap st (.atEntry M structMap params) := by
  obtain ⟨types, htypes, h⟩ := bind_eq_ok.mp h
  obtain ⟨st₁, hst₁, h⟩ := bind_eq_ok.mp h
  cases h
  obtain ⟨hnext, _, _, hargs⟩ := lookup_declareArgs htypes hst₁
  refine ⟨hnext, ?_⟩
  intro x decl type hscope
  simp only [Store.atEntry, bind_eq_bind, bind_eq_some_iff, Prod.exists, toOption_eq_some] at hscope
  obtain ⟨index, hidx, name, decl', hparam, type', htype, heq⟩ := hscope
  cases heq
  obtain ⟨hlt, hname, _⟩ := findIdx?_eq_some_iff_getElem.mp hidx
  obtain ⟨type'', htype'', hlk⟩ := hargs index name decl hparam
  obtain rfl : name = x := by
    rw [getElem?_eq_getElem hlt] at hparam
    rw [some.inj hparam] at hname
    exact eq_of_beq hname
  rw [htype] at htype''
  cases htype''
  refine ⟨_, hlk, rfl, rfl, rfl, ?_, ⟨nofun, getVarType_ne_contextRef hm htype⟩, Or.inr htype⟩
  simp [ValueModel.denote, Store.atEntry, hidx]

end Entry

/-- The paths of the symbol table have the types and values of the store. -/
def Denotes {D : Type} (M : ValueModel D) (structMap : StructMap) (st : GenState)
    (store : Store D) : Prop :=
  ∀ head fields type d, evalExpr M structMap store (.path head fields) = some (type, d) →
    SafePath structMap st.symbolTable head fields →
      ∃ value, getPath structMap st.symbolTable head fields = .ok value ∧
        value.type = type ∧ M.denote value = d

/-- If every statement of a function body is safe in the states before it, the
generator completes and after every statement the symbol table has the values
of ordinary variables. -/
theorem genStmts_denotes {D : Type} (M : ValueModel D) {structs : List StructAST}
    {structMap : StructMap} {globals : SymbolTable} {params : List (String × VarType)}
    {st : GenState} {body pre : List Stmt} (hstructs : genStructs structs = .ok structMap)
    (henter : enterFunction structMap globals params = .ok st)
    (hexec : execStmts M structMap (.atEntry M structMap params) body ≠ none)
    (hsafe : SafeRun M structMap (.atEntry M structMap params) st body) (hpre : pre <+: body) :
    ∃ st' store', genStmts structMap pre st = .ok st' ∧
      execStmts M structMap (.atEntry M structMap params) pre = some store' ∧
      Denotes M structMap st' store' := by
  have hm := genStructs_wellFormed hstructs
  obtain ⟨st', store', hst', hstore', h⟩ :=
    (enterFunction_agrees M hm henter).exists_genStmts hm hexec hsafe hpre
  refine ⟨st', store', hst', hstore', ?_⟩
  intro head fields type d heval hpath
  obtain ⟨value, hvalue, hgen⟩ := h.exists_genExpr hm heval hpath
  exact ⟨value, (genExpr_path.mp hvalue).1, hgen.type_eq, hgen.denote_eq⟩

/-- Values as trees of numbers: the number at the end of every path of fields. -/
def treeModel (args : Nat → List Nat → Nat) : ValueModel (List Nat → Nat) where
  param := args
  const n := fun _ => n
  init _ := fun _ => 0
  binary op _ l r := fun p =>
    match op with
    | .add => l p + r p
    | .sub => l p - r p
    | .mul => l p * r p
    | .div => l p / r p
    | .eq => if l p = r p then 1 else 0
    | .ge => if l p ≥ r p then 1 else 0
    | .le => if l p ≤ r p then 1 else 0
    | .lt => if l p < r p then 1 else 0
    | .gt => if l p > r p then 1 else 0
  bitCast _ target d := fun p =>
    match target with
    | .int w => d p % 2 ^ w
    | _ => d p
  field i d := fun p => d (i :: p)
  setField i d v := fun p =>
    match p with
    | [] => d []
    | j :: q => if j = i then v q else d p
  extract k buffer _ := fun p => buffer (k :: p)
  other _ := fun _ => 0
  field_setField_self i d v := by
    funext p
    exact if_pos rfl
  field_setField_of_ne i j d v h := by
    funext p
    exact if_neg h

/-- A handler with a packet and a buffer. -/
def packetParams : List (String × VarType) := [("p", .mk "Packet" []), ("b", .mk "buf" [])]

def packetStart : GenState :=
  (enterFunction packetMap ⟨[[]]⟩ packetParams).toOption.getD ⟨⟨[]⟩, [], 0, [], []⟩

/-- `int x; x = p.len; Header h; b.extract(h); h.src = x + 1;` -/
def readHeader : List Stmt :=
  [.decl "x" (.mk "int" []) none, .expr (.assign (.path "x" []) (.path "p" ["len"])),
    .decl "h" (.mk "Header" []) none,
    .expr (.extract ["b"] (.path "h" [])),
    .expr (.assign (.path "h" ["src"]) (.binop .add (.path "x" []) (.num 1)))]

theorem genStmts_denotes_readHeader : ∃ st' store',
    genStmts packetMap readHeader packetStart = .ok st' ∧
      execStmts (treeModel fun _ _ => 5) packetMap
        (.atEntry (treeModel fun _ _ => 5) packetMap packetParams) readHeader = some store' ∧
      Denotes (treeModel fun _ _ => 5) packetMap st' store' := by
  have hstrs : genStructs packetStructs = .ok packetMap := rfl
  have henter : enterFunction packetMap ⟨[[]]⟩ packetParams = .ok packetStart := rfl
  refine genStmts_denotes _ hstrs henter (by exact nofun) ?_ prefix_rfl
  refine .cons rfl rfl rfl (.cons ⟨?_, ?_, nofun⟩ rfl rfl (.cons rfl rfl rfl (.cons ?_ rfl rfl
    (.cons ⟨⟨nofun, nofun, ?_, trivial⟩, Or.inr rfl⟩ rfl rfl trivial))))
  · intro value hvalue
    cases hvalue
    rfl
  all_goals exact safePath_of_length_le _ _ (by decide)

/-- A handler with one parameter of type `int`. -/
def intParamStart : GenState :=
  (enterFunction packetMap ⟨[[]]⟩ [("n", .mk "int" [])]).toOption.getD ⟨⟨[]⟩, [], 0, [], []⟩

/-- `n = 1;` -/
def setParam : List Stmt := [.expr (.assign (.path "n" []) (.num 1))]

/-- `Header h; int x; x = h.src; x = 1;` -/
def setCopiedField : List Stmt :=
  [.decl "h" (.mk "Header" []) none, .decl "x" (.mk "int" []) none,
    .expr (.assign (.path "x" []) (.path "h" ["src"])),
    .expr (.assign (.path "x" []) (.num 1))]

/-- Assigning to a parameter aborts; a variable that was assigned a field is
assigned the struct of the field. -/
theorem genStmts_fails_setParam :
    enterFunction packetMap ⟨[[]]⟩ [("n", .mk "int" [])] = .ok intParamStart ∧
      execStmts (treeModel fun _ _ => 5) packetMap
        (.atEntry (treeModel fun _ _ => 5) packetMap [("n", .mk "int" [])]) setParam ≠ none ∧
      genStmts packetMap setParam intParamStart =
        .error (.abort "assignment: no defining operation") ∧
      execStmts (treeModel fun _ _ => 5) packetMap
        (.atEntry (treeModel fun _ _ => 5) packetMap [("n", .mk "int" [])]) setCopiedField ≠ none ∧
      ((genStmts packetMap setCopiedField intParamStart).toOption.bind (·.value? "x")).map
        SsaValue.type = some headerType :=
  ⟨rfl, nofun, rfl, nofun, rfl⟩

end Alkali
