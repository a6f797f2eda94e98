import Alkali.MLIRGen.Reference

/-!
# Straight-line code

The generator decides what an assignment means by the operation that defines the
current value of its left-hand side. Where this operation is not one of those
that the generator takes for a field or cannot find, the generated values are
the values of the variables.
-/

namespace Alkali

open Fallible

section Conditions

variable {D : Type} (M : ValueModel D) (structMap : StructMap)

/-- An assignment to a variable with this value replaces the variable's value. -/
def SsaValue.rebindable : SsaValue → Bool
  | blockArg _ _ | structAccessOp _ _ _ | contextRefOp _ _ => false
  | _ => true

def Expr.isBlockArgIn (st : GenState) : Expr → Bool
  | path head [] => (st.value? head).any SsaValue.isBlockArg
  | _ => false

def Expr.isConstantIn (st : GenState) : Expr → Bool
  | num _ => true
  | path head [] => (st.value? head).any SsaValue.isConstant
  | _ => false

/-- The inner fields of the path are found. -/
def SafePath (table : SymbolTable) (head : String) (fields : List String) : Prop :=
  ∀ entry steps, table.lookup head = some entry →
    declaredSteps structMap entry.decl fields = some steps →
      FieldVariablesMatch structMap table fields steps

def SafeExpr (table : SymbolTable) : Expr → Prop
  | .path head fields => SafePath structMap table head fields
  | .binop op l r => op ≠ .mul ∧ op ≠ .div ∧ SafeExpr table l ∧ SafeExpr table r
  | _ => True

/-- What the generator needs to get a statement right, in the states before it. -/
def SafeStmt (store : Store D) (st : GenState) : Stmt → Prop
  | .decl name _ none => st.symbolTable.lookup name = none
  | .decl name decl (some e) =>
    st.symbolTable.lookup name = none ∧ SafeExpr structMap st.symbolTable e ∧ (decl.name = "" ∨
        (evalExpr M structMap store e).map Prod.fst = (getVarType structMap decl).toOption)
  | .expr (.assign (.path head []) e) =>
    (∀ value, st.value? head = some value → value.rebindable) ∧
      SafeExpr structMap st.symbolTable e ∧
      (e.isBlockArgIn st → (evalExpr M structMap store e).map Prod.fst = st.type? head)
  | .expr (.assign (.path head [field]) e) =>
    SafeExpr structMap st.symbolTable e ∧
      (e.isConstantIn st ∨ (evalExpr M structMap store e).map Prod.fst =
        (store.resolve structMap head [field]).map Prod.fst)
  | .expr (.assign _ _) => False
  | .expr (.extract (caller :: callerFields) (.path _ [])) =>
    SafePath structMap st.symbolTable caller callerFields
  | .expr (.extract _ _) => False
  | .expr e => SafeExpr structMap st.symbolTable e
  | .ret _ | .ifElse _ _ _ => False

/-- Every statement is safe in the states before it. -/
def SafeRun (store : Store D) (st : GenState) : List Stmt → Prop
  | [] => True
  | s :: rest => SafeStmt M structMap store st s ∧
      ∀ store' st', execStmt M structMap store s = some store' →
        genStmt structMap s st = .ok st' → SafeRun store' st' rest

variable {M structMap}

/-- Only the second and later fields of a path are looked up by name. -/
theorem safePath_of_length_le (table : SymbolTable) (head : String) {fields : List String}
    (h : fields.length ≤ 1) : SafePath structMap table head fields := by
  intro entry steps _ hsteps
  match fields, steps with
  | [], _ => exact trivial
  | [field], [] => exact trivial
  | [field], step :: steps =>
    exact trivial

theorem SafeRun.cons {store store' : Store D} {st st' : GenState} {s : Stmt} {rest : List Stmt}
    (hs : SafeStmt M structMap store st s) (hstore : execStmt M structMap store s = some store')
    (hst : genStmt structMap s st = .ok st') (hrest : SafeRun M structMap store' st' rest) :
    SafeRun M structMap store st (s :: rest) := by
  refine ⟨hs, ?_⟩
  intro store₁ st₁ hstore₁ hst₁
  obtain rfl := Option.some.inj (hstore.symm.trans hstore₁)
  obtain rfl := Except.ok.inj (hst.symm.trans hst₁)
  exact hrest

end Conditions

/-- The value is neither a global variable nor a reference to a context field. -/
structure SsaValue.IsRValue (value : SsaValue) : Prop where
  not_global : ∀ name type, value ≠ .globalOp name type
  not_ref : ∀ type, value.type ≠ .contextRef type

theorem SsaValue.IsRValue.toRValue {value : SsaValue} (h : value.IsRValue) (st : GenState)
    (ltype : Option Ty) : Alkali.toRValue st value ltype = (value, st) := by
  unfold Alkali.toRValue
  split
  · next name type => exact absurd rfl (h.not_global name type)
  · split
    · next type htype => exact absurd htype (h.not_ref type)
    · rfl

section Simulation

variable {D : Type} (M : ValueModel D) (structMap : StructMap)

/-- The entry of a variable has the variable's type and value. -/
structure EntryAgrees (entry : Entry) (decl : VarType) (type : Ty) (d : D) : Prop where
  decl_eq : entry.decl = decl
  type_eq : entry.type = type
  value_type : entry.value.type = type
  denote_eq : M.denote entry.value = d
  rvalue : entry.value.IsRValue
  declared : decl.name = "" ∨ getVarType structMap decl = .ok type

/-- The symbol table has the variables of the store. -/
structure Agrees (st : GenState) (store : Store D) : Prop where
  next : st.next = store.extracts
  entries : ∀ x decl type, store.scope x = some (decl, type) →
    ∃ entry, st.symbolTable.lookup x = some entry ∧
      EntryAgrees M structMap entry decl type (store.value x)

/-- The generated value of an expression. -/
structure Generated (st : GenState) (e : Expr) (value : SsaValue) (type : Ty) (d : D) : Prop where
  type_eq : value.type = type
  denote_eq : M.denote value = d
  rvalue : value.IsRValue
  literal : e.isLiteral → value.isConstant
  blockArg : value.isBlockArg → e.isBlockArgIn st
  constant : e.isConstantIn st → value.isConstant

variable {M structMap}
variable {value : SsaValue} {type : Ty} {t : VarType} {fields : List String}
  {steps : List (Nat × Ty)}

theorem exists_tryCast (h : Assignable value.type type)
    (hblock : value.isBlockArg → value.type = type) :
    ∃ v, tryCast value type = .ok v ∧ v.type = type ∧
      M.denote v = M.convert value.type type (M.denote value) ∧
      (v = value ∨ v = .bitCastOp value type) := by
  by_cases heq : value.type = type
  · subst heq
    exact ⟨value, tryCast_type value, rfl, (M.convert_self _ _).symm, Or.inl rfl⟩
  · obtain ⟨hsrc, htgt⟩ := h.resolve_left heq
    obtain ⟨w, hw⟩ := Ty.isInt_iff.mp hsrc
    obtain ⟨w', rfl⟩ := Ty.isInt_iff.mp htgt
    have hne : w ≠ w' := fun hww => heq (hww ▸ hw)
    refine ⟨.bitCastOp value (.int w'), ?_, rfl, ?_, Or.inr rfl⟩
    · simp [tryCast, hw, hne, mt hblock heq]
    · simp [ValueModel.denote, ValueModel.convert, hw, hne]

theorem getVarType_ne_contextRef (hm : structMap.WellFormed)
    (ht : getVarType structMap t = .ok type) (ref : Ty) : type ≠ .contextRef ref := by
  rcases getVarType_eq_ok ht with ⟨_, hne⟩ | ⟨_, str, hfind⟩
  · exact hne ref
  · obtain ⟨_, elems, rfl, _⟩ := hm _ _ _ hfind
    exact nofun

theorem endType_ne_contextRef (hm : structMap.WellFormed)
    (hsteps : declaredSteps structMap t fields = some steps) {type ref : Ty}
    (htype : type ≠ .contextRef ref) : endType type steps ≠ .contextRef ref := by
  induction fields generalizing t steps type with
  | nil =>
    cases hsteps
    exact htype
  | cons name fields ih =>
    obtain ⟨_, _, _, _, _, _, field, fieldType, rest, _, _, _, _, hft, hrest, rfl⟩ :=
      declaredSteps_cons hsteps
    exact ih hrest (getVarType_ne_contextRef hm hft ref)

theorem accessPath_ne_globalOp (steps : List (Nat × Ty))
    (h : ∀ name type, value ≠ .globalOp name type) (name : String) (type : Ty) :
    accessPath value steps ≠ .globalOp name type := by
  induction steps generalizing value with
  | nil => exact h name type
  | cons step steps ih => exact ih nofun

variable {st : GenState} {store : Store D}

/-- A path of the store is a path of the symbol table. -/
theorem Agrees.exists_getPath (h : Agrees M structMap st store) (hm : structMap.WellFormed)
    {head : String} (hresolve : store.resolve structMap head fields = some (type, steps))
    (hsafe : SafePath structMap st.symbolTable head fields) :
    ∃ value, getPath structMap st.symbolTable head fields = .ok (accessPath value steps) ∧
      st.value? head = some value ∧ (accessPath value steps).type = type ∧
      (accessPath value steps).IsRValue ∧
      M.denote (accessPath value steps) = M.path (store.value head) steps := by
  obtain ⟨decl, varType, hscope, hsteps, rfl⟩ := (Store.resolve_eq_some _).mp hresolve
  obtain ⟨entry, hent, hagr⟩ := h.entries head decl varType hscope
  have htype : (accessPath entry.value steps).type = endType varType steps := by
    rw [type_accessPath, hagr.value_type]
  refine ⟨entry.value, ?_, ?_, htype, ⟨?_, ?_⟩, ?_⟩
  · simp only [getPath, hent]
    cases fields with
    | nil =>
      cases hsteps
      rfl
    | cons name fields =>
      obtain ⟨_, _, _, _, _, _, _, _, _, hstruct, _⟩ := declaredSteps_cons hsteps
      have hdeclared := hagr.declared.resolve_left (getVarType_eq_struct hstruct).1
      rw [← hagr.value_type] at hdeclared
      rw [getFields_accessPath_iff hm hdeclared hsteps, stepsFound_iff hm hent
        (hagr.decl_eq ▸ hsteps)]
      exact hsafe entry steps hent (hagr.decl_eq ▸ hsteps)
  · simp [GenState.value?, hent]
  · exact accessPath_ne_globalOp steps hagr.rvalue.not_global
  · intro ref
    rw [htype]
    exact endType_ne_contextRef hm hsteps (hagr.value_type ▸ hagr.rvalue.not_ref ref)
  · rw [M.denote_accessPath, hagr.denote_eq]

theorem operandType_eq_some {l r : Expr} {lt rt : Ty} (h : operandType l r lt rt = some type) :
    lt = rt ∧ type = lt ∨ lt ≠ rt ∧ l.isLiteral ∧ rt.isInt ∧ type = rt ∨
      lt ≠ rt ∧ r.isLiteral ∧ lt.isInt ∧ type = lt := by
  unfold operandType at h
  split_ifs at h with heq hl hr
  · exact Or.inl ⟨heq, (Option.some.inj h).symm⟩
  · exact Or.inr (Or.inl ⟨heq, hl.1, hl.2, (Option.some.inj h).symm⟩)
  · exact Or.inr (Or.inr ⟨heq, hr.1, hr.2, (Option.some.inj h).symm⟩)

theorem SsaValue.type_of_isConstant (h : value.isConstant) : value.type = .int 64 := by
  cases value <;> first | rfl | cases h

theorem SsaValue.not_isBlockArg_of_isConstant (h : value.isConstant) : ¬ value.isBlockArg := by
  cases value <;> simp_all [isConstant, isBlockArg]

/-- A constant is cast to any integer type. -/
theorem exists_tryCast_constant (h : value.isConstant) (htype : type.isInt) :
    ∃ v, tryCast value type = .ok v ∧ v.type = type ∧
      M.denote v = M.convert value.type type (M.denote value) ∧
      (v = value ∨ v = .bitCastOp value type) := by
  have hsrc := value.type_of_isConstant h
  exact exists_tryCast (Or.inr ⟨hsrc ▸ rfl, htype⟩)
    fun hblock => absurd hblock (value.not_isBlockArg_of_isConstant h)

/-- Operands are cast to their common type. -/
theorem exists_castConstant {l r : Expr} {lv rv : SsaValue} {lt rt : Ty} {ld rd : D}
    (hl : Generated M st l lv lt ld) (hr : Generated M st r rv rt rd)
    (htype : operandType l r lt rt = some type) :
    ∃ lhs rhs, castConstant lv rv = .ok (lhs, rhs) ∧ lhs.type = type ∧
      M.denote lhs = M.convert lt type ld ∧ M.denote rhs = M.convert rt type rd := by
  obtain ⟨hlt, rfl, _, hlit, _, _⟩ := hl
  obtain ⟨hrt, rfl, _, hrit, _, _⟩ := hr
  subst hlt hrt
  rcases operandType_eq_some htype with ⟨heq, rfl⟩ | ⟨hne, hlit', hint, rfl⟩ |
    ⟨hne, hrit', hint, rfl⟩
  · have hcast : castConstant lv rv = .ok (lv, rv) := by
      have hlv : tryCast lv rv.type = .ok lv := heq ▸ tryCast_type lv
      have hrv : tryCast rv lv.type = .ok rv := heq ▸ tryCast_type rv
      unfold castConstant
      simp [hlv, hrv, bind, Except.bind]
    refine ⟨lv, rv, hcast, rfl, (M.convert_self _ _).symm, ?_⟩
    rw [heq, M.convert_self]
  · obtain ⟨lhs, hcast, hty, hden, _⟩ := exists_tryCast_constant (M := M) (hlit hlit') hint
    refine ⟨lhs, rv, ?_, hty, hden, (M.convert_self _ _).symm⟩
    simp [castConstant, hlit hlit', hcast, bind, Except.bind]
  · obtain ⟨rhs, hcast, _, hden, _⟩ := exists_tryCast_constant (M := M) (hrit hrit') hint
    have hlv : ¬ lv.isConstant := fun hlv =>
      hne ((lv.type_of_isConstant hlv).trans (rv.type_of_isConstant (hrit hrit')).symm)
    refine ⟨lv, rhs, ?_, rfl, (M.convert_self _ _).symm, hden⟩
    simp [castConstant, hlv, hrit hrit', hcast, bind, Except.bind]

theorem accessPath_cons (value : SsaValue) (step : Nat × Ty) (steps : List (Nat × Ty)) :
    ∃ input index type, accessPath value (step :: steps) = .structAccessOp input index type := by
  induction steps generalizing value step with
  | nil => exact ⟨_, _, _, rfl⟩
  | cons step' steps ih => exact ih _ step'

theorem Agrees.exists_genExpr (h : Agrees M structMap st store) (hm : structMap.WellFormed)
    {e : Expr} {d : D} (heval : evalExpr M structMap store e = some (type, d))
    (hsafe : SafeExpr structMap st.symbolTable e) :
    ∃ value, genExpr structMap e st = .ok (value, st) ∧ Generated M st e value type d := by
  induction e generalizing type d with
  | num n =>
    cases heval
    refine ⟨.constantOp n, rfl, rfl, rfl, ⟨?_, ?_⟩, fun _ => rfl, ?_, fun _ => rfl⟩
    · rintro _ _ ⟨⟩
    · rintro _ ⟨⟩
    · rintro ⟨⟩
  | path head fields =>
    simp only [evalExpr, Option.bind_eq_bind, Option.bind_eq_some_iff, Prod.exists] at heval
    obtain ⟨_, steps, hresolve, heq⟩ := heval
    cases heq
    obtain ⟨value, hget, hvalue, htype, hrvalue, hdenote⟩ := h.exists_getPath hm hresolve hsafe
    obtain ⟨decl, varType, _, hsteps, _⟩ := (Store.resolve_eq_some _).mp hresolve
    refine ⟨_, genExpr_path.mpr ⟨hget, rfl⟩, htype, hdenote, hrvalue, ?_, ?_, ?_⟩
    · rintro ⟨⟩
    · intro hblock
      cases fields with
      | nil =>
        cases hsteps
        simpa [Expr.isBlockArgIn, hvalue, accessPath] using hblock
      | cons field fields =>
        obtain ⟨_, _, _, _, _, _, _, _, _, _, _, _, _, _, _, rfl⟩ := declaredSteps_cons hsteps
        obtain ⟨_, _, _, haccess⟩ := accessPath_cons value _ _
        rw [haccess] at hblock
        cases hblock
    · intro hconst
      cases fields with
      | nil =>
        cases hsteps
        simpa [Expr.isConstantIn, hvalue, accessPath] using hconst
      | cons field fields => cases hconst
  | binop op l r ihl ihr =>
    simp only [evalExpr, Option.bind_eq_bind, Option.bind_eq_some_iff, Prod.exists] at heval
    obtain ⟨lt, ld, hl, rt, rd, hr, operand, hop, heq⟩ := heval
    cases heq
    obtain ⟨hmul, hdiv, hsafel, hsafer⟩ := hsafe
    obtain ⟨lv, hlv, hgl⟩ := ihl hl hsafel
    obtain ⟨rv, hrv, hgr⟩ := ihr hr hsafer
    obtain ⟨lhs, rhs, hcast, hlt, hld, hrd⟩ := exists_castConstant hgl hgr hop
    have href : ∀ ref, operand ≠ .contextRef ref := by
      rcases operandType_eq_some hop with ⟨_, rfl⟩ | ⟨_, _, _, rfl⟩ | ⟨_, _, _, rfl⟩
      · exact hgl.type_eq ▸ hgl.rvalue.not_ref
      · exact hgr.type_eq ▸ hgr.rvalue.not_ref
      · exact hgl.type_eq ▸ hgl.rvalue.not_ref
    have htype : (SsaValue.binaryOp op lhs rhs).type = op.resultType operand := by
      cases op <;> first | exact hlt | rfl | contradiction
    refine ⟨.binaryOp op lhs rhs, ?_, htype, ?_, ⟨?_, ?_⟩, ?_, ?_, ?_⟩
    · rw [genExpr_binop]
      refine ⟨lv, st, hlv, rv, st, ?_, lhs, rhs, ?_, hdiv, rfl, ?_⟩
      · rw [hgl.rvalue.toRValue]
        exact hrv
      · rw [hgl.rvalue.toRValue, hgr.rvalue.toRValue]
        exact hcast
      · rw [hgr.rvalue.toRValue]
    · rw [ValueModel.denote, hlt, hld, hrd]
    · rintro _ _ ⟨⟩
    · intro ref
      rw [htype]
      cases op <;> first | exact href ref | rintro ⟨⟩
    · rintro ⟨⟩
    · rintro ⟨⟩
    · rintro ⟨⟩
  | literal | assign | extract | call | init => cases heval

end Simulation

end Alkali
