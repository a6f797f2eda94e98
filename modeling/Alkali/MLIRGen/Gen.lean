import Alkali.MLIRGen.State

/-!
# `MLIRGen`

The generator walks expressions and statements with its state. It fails with an
error message, or aborts where the source dereferences a null pointer or fails
an assertion.
-/

namespace Alkali

open Fallible

/-- The struct types by name, with their declarations. -/
abbrev StructMap := List (String × Ty × StructAST)

/-- The builtin types without parameters. -/
def builtinType : String → Option Ty
  | "" => some .any
  | "long" => some (.int 64)
  | "int" => some (.int 32)
  | "atom" => some .atom
  | "context" => some .context
  | "buf" => some .buffer
  | "In" => some (.port true false)
  | "Out" => some (.port false true)
  | "InOut" => some (.port true true)
  | "mutex" => some (.opaqueType "mutex")
  | _ => none

/-- `getVarType`. -/
def getVarType (structMap : StructMap) : VarType → Except Failure Ty
  | .mk "bits" [.integer width] => .ok (.int width)
  | .mk "bits" params =>
    .error (.error ("error: not valid parameter for bits'" ++ toString params.length ++ "'"))
  | .mk "table" [.type key, .type value, .integer size] => do
    let kt ← getVarType structMap key
    let vt ← getVarType structMap value
    .ok (.table kt vt size)
  | .mk "table" params =>
    .error (.error ("error: Wrong Type parameter for table'" ++ toString params.length ++ "'"))
  | .mk name _ =>
    match builtinType name with
    | some type => .ok type
    | none =>
      match structMap.lookup name with
      | none => .error (.error ("error: unknown struct type '" ++ name ++ "'"))
      | some (type, _) => .ok type

variable (structMap : StructMap)

/-- The type of a field of a struct definition. -/
def getFieldType (field : StructField) : Except Failure Ty :=
  if field.hasInit then
    .error (.error "error: variables within a struct definition must not have initializers")
  else getVarType structMap field.type

/-- `mlirGen(StructAST)`. -/
def genStruct (str : StructAST) : Except Failure StructMap :=
  match structMap.lookup str.name with
  | some _ => .error (.error ("error: struct type with name `" ++ str.name ++ "' already exists"))
  | none => do
    let elementTypes ← str.structVars.mapM (getFieldType structMap)
    .ok (structMap ++ [(str.name, .struct str.isEvent elementTypes str.name, str)])

def genStructs (structs : List StructAST) : Except Failure StructMap :=
  structs.foldlM genStruct []

/-- `getStructForName`: the struct that the variable of this name is declared with. -/
def getStructForName (structMap : StructMap) (table : SymbolTable) (name : String) :
    Option StructAST :=
  match table.lookup name with
  | none => none
  | some entry =>
    if entry.decl.name = "" then none else (structMap.lookup entry.decl.name).map Prod.snd

/-- `getMemberIndex`. -/
def getMemberIndex (str : StructAST) (name : String) : Option Nat :=
  str.structVars.findIdx? fun field => field.name == name

/-- `StructAccessOp::build`. -/
def structAccess (input : SsaValue) (index : Nat) : Except Failure SsaValue :=
  match input.type with
  | .struct _ elementTypes _ =>
    match elementTypes[index]? with
    | some type => .ok (.structAccessOp input index type)
    | none => .error (.abort "StructAccessOp: index out of range")
  | _ => .error (.abort "StructAccessOp: not a struct")

/-- The steps of `getPath` after the first one. `prev` is the name before the
fields that are left. -/
def getFields (structMap : StructMap) (table : SymbolTable) (value : SsaValue) (prev : String) :
    List String → Except Failure SsaValue
  | [] => .ok value
  | field :: fields =>
    if value.type = .context then
      getFields structMap table (.contextRefOp field value) field fields
    else
      match getStructForName structMap table prev with
      | none => .error (.error ("dot applied to a non-struct: " ++ prev))
      | some str =>
        match getMemberIndex str field with
        | none => .error (.error "invalid access into struct expression")
        | some index => do
          let accessed ← structAccess value index
          getFields structMap table accessed field fields

/-- `getPath`. -/
def getPath (table : SymbolTable) (head : String) (fields : List String) :
    Except Failure SsaValue :=
  match table.lookup head with
  | none => .error (.error ("error: unknown variable '" ++ head ++ "'"))
  | some entry => getFields structMap table entry.value head fields

/-- `toRValue`: import a global variable, load a context field. -/
def toRValue (st : GenState) (value : SsaValue) (ltype : Option Ty) : SsaValue × GenState :=
  match value with
  | .globalOp name type => (.globalImportOp name (ltype.getD type), st)
  | value =>
    match value.type with
    | .contextRef valueType =>
      (.loadOp st.next value (ltype.getD valueType), { st with next := st.next + 1 })
    | _ => (value, st)

/-- A constant operand is cast to the type of the other operand. -/
def castConstant (lhs rhs : SsaValue) : Except Failure (SsaValue × SsaValue) :=
  if lhs.isConstant then do
    let lhs ← tryCast lhs rhs.type
    .ok (lhs, rhs)
  else if rhs.isConstant then do
    let rhs ← tryCast rhs lhs.type
    .ok (lhs, rhs)
  else .ok (lhs, rhs)

/-- The assignment of `mlirGen(BinaryExprAST)`, by the operation that defines the
left-hand value. -/
def genAssign (st : GenState) (target : Expr) (lhs rhs : SsaValue) :
    Except Failure (SsaValue × GenState) :=
  match lhs with
  | .blockArg _ _ => .error (.abort "assignment: no defining operation")
  | .contextRefOp _ _ => .ok (.nopOp, { st with stores := st.stores ++ [(lhs, rhs)] })
  | .structAccessOp input index _ => do
    let value := .structUpdateOp input index rhs
    let st ← st.updateTarget target value
    .ok (value, st)
  | _ => do
    let st ← st.updateTarget target rhs
    .ok (rhs, st)

/-- The path of the object that a method is called on. -/
def getCaller (table : SymbolTable) : List String → Except Failure SsaValue
  | [] => .error (.error "callop: invalid extract")
  | head :: fields => getPath structMap table head fields

def Method.invalid : Method → Failure
  | emit => .error "callop: invalid emit"
  | lookup => .error "callop: invalid lookup"
  | update => .error "callop: invalid update"
  | set => .error "callop: invalid bitset"
  | get => .error "callop: invalid bitget"

/-- The end of `mlirGen(CallExprAST)`, with the values of the caller and the arguments. -/
def genMethod (path : List String) (caller : SsaValue) (st : GenState) :
    Method → List SsaValue → Except Failure (SsaValue × GenState)
  | .emit, [target] => .ok (.nopOp, (toRValue st target none).2)
  | .lookup, [key] =>
    match caller.type with
    | .table _ valueType _ =>
      .ok ((toRValue (toRValue st caller none).2 key none).2.createOp valueType)
    | _ => .error Method.lookup.invalid
  | .update, [key, value] =>
    .ok (.nopOp, (toRValue (toRValue (toRValue st caller none).2 key none).2 value none).2)
  | .set, [offset, value] =>
    if !offset.isConstant then .error (.error "callop: invalid bitget operand")
    else
      match value.type with
      | .int _ => do
        let (bitset, st) := (toRValue st value (some (.int 1))).2.createOp caller.type
        let st ← st.update (path.headD "") bitset
        .ok (bitset, st)
      | _ => .error (.error "callop: invalid operand")
  | .get, [offset] =>
    if offset.isConstant then .ok (st.createOp (.int 1))
    else .error (.error "callop: invalid bitget operand")
  | method, _ => .error method.invalid

mutual

/-- `mlirGen(ExprAST)`. -/
def genExpr (structMap : StructMap) : Expr → GenState → Except Failure (SsaValue × GenState)
  | .num value, st => .ok (.constantOp value, st)
  | .literal type, st => .ok (st.createOp type)
  | .path head fields, st => do
    let value ← getPath structMap st.symbolTable head fields
    .ok (value, st)
  | .binop op l r, st => do
    let (lhs, st) ← genExpr structMap l st
    let left := toRValue st lhs none
    let (rhs, st) ← genExpr structMap r left.2
    let right := toRValue st rhs left.1.type
    let (lhs, rhs) ← castConstant left.1 right.1
    if op = .div then .error (.error "invalid binary operator '/'")
    else .ok (.binaryOp op lhs rhs, right.2)
  | .assign l r, st => do
    let (lhs, st) ← genExpr structMap l st
    let (rhs, st) ← genExpr structMap r st
    let right := toRValue st rhs lhs.type
    let (lhs, rhs) ← castConstant lhs right.1
    genAssign right.2 l lhs rhs
  | .extract path target, st =>
    match getCaller structMap st.symbolTable path with
    | .error (.abort reason) => .error (.abort reason)
    | caller => do
      -- an error in the path of the caller is noticed after the argument
      let (value, st) ← genExpr structMap target st
      let caller ← caller
      let extracted := .extractOp st.next caller value.type
      let st ← { st with next := st.next + 1 }.updateTarget target extracted
      .ok (extracted, st)
  | .call path method args, st =>
    match getCaller structMap st.symbolTable path with
    | .error (.abort reason) => .error (.abort reason)
    | caller => do
      let (operands, st) ← genArgs structMap false args st
      match caller with
      | .ok caller => genMethod path caller st method operands
      | .error _ => .error method.invalid
  | .init type args, st => do
    let type ← getVarType structMap type
    match genArgs structMap true args st with
    | .ok (_, st) => .ok (st.createOp type)
    | .error _ => .error (.abort "toRValue: null value")

/-- The arguments of a call, or the values of an initialization, which are loaded. -/
def genArgs (structMap : StructMap) (load : Bool) :
    List Expr → GenState → Except Failure (List SsaValue × GenState)
  | [], st => .ok ([], st)
  | e :: rest, st => do
    let (value, st) ← genExpr structMap e st
    let (value, st) := if load then toRValue st value none else (value, st)
    let (values, st) ← genArgs structMap load rest st
    .ok (value :: values, st)

end

section Inversion

variable {structMap : StructMap} {st st' : GenState} {value : SsaValue}

theorem genExpr_path {head : String} {fields : List String} :
    genExpr structMap (.path head fields) st = .ok (value, st') ↔
      getPath structMap st.symbolTable head fields = .ok value ∧ st' = st := by
  simp only [genExpr, bind_eq_ok, Except.ok.injEq, Prod.mk.injEq]
  constructor
  · rintro ⟨_, hpath, rfl, rfl⟩
    exact ⟨hpath, rfl⟩
  · rintro ⟨hpath, rfl⟩
    exact ⟨value, hpath, rfl, rfl⟩

theorem genExpr_binop {op : BinOp} {l r : Expr} :
    genExpr structMap (.binop op l r) st = .ok (value, st') ↔
      ∃ lv st₁, genExpr structMap l st = .ok (lv, st₁) ∧
        ∃ rv st₂, genExpr structMap r (toRValue st₁ lv none).2 = .ok (rv, st₂) ∧
          ∃ lhs rhs, castConstant (toRValue st₁ lv none).1
              (toRValue st₂ rv (some (toRValue st₁ lv none).1.type)).1 = .ok (lhs, rhs) ∧
            op ≠ .div ∧ .binaryOp op lhs rhs = value ∧
            (toRValue st₂ rv (some (toRValue st₁ lv none).1.type)).2 = st' := by
  simp only [genExpr, bind_eq_ok, Prod.exists]
  by_cases hop : op = .div <;> simp [hop]

theorem genExpr_assign {l r : Expr} : genExpr structMap (.assign l r) st = .ok (value, st') ↔
      ∃ lv st₁, genExpr structMap l st = .ok (lv, st₁) ∧
        ∃ rv st₂, genExpr structMap r st₁ = .ok (rv, st₂) ∧
          ∃ lhs rhs, castConstant lv (toRValue st₂ rv (some lv.type)).1 = .ok (lhs, rhs) ∧
            genAssign (toRValue st₂ rv (some lv.type)).2 l lhs rhs = .ok (value, st') := by
  simp only [genExpr, bind_eq_ok, Prod.exists]

theorem genExpr_extract {path : List String} {target : Expr} :
    genExpr structMap (.extract path target) st = .ok (value, st') ↔
      ∃ caller, getCaller structMap st.symbolTable path = .ok caller ∧
        ∃ old st₁, genExpr structMap target st = .ok (old, st₁) ∧
          { st₁ with next := st₁.next + 1 }.updateTarget target
            (.extractOp st₁.next caller old.type) = .ok st' ∧
          .extractOp st₁.next caller old.type = value := by
  rw [genExpr]
  cases hcaller : getCaller structMap st.symbolTable path with
  | error e => cases e <;> simp [bind_eq_ok]
  | ok caller => simp [bind_eq_ok]

end Inversion

/-- `mlirGen(VarDeclExprAST)`: an initial value must have the declared type. -/
def genDecl (name : String) (type : VarType) (init : Option Expr) (st : GenState) :
    Except Failure GenState :=
  match init with
  | none => do
    let varType ← getVarType structMap type
    st.declare name type (.initOp varType)
  | some e => do
    let (value, st) ← genExpr structMap e st
    if type.name = "" then st.declare name type value
    else do
      let varType ← getVarType structMap type
      if varType = value.type then st.declare name type value
      else .error (.error
        "struct type of initializer is different than the variable declaration.")

/-- Bind the results of a conditional to the variables that it updates. -/
def GenState.updateAll (st : GenState) (id : Nat) :
    List (String × Nat × Ty) → Except Failure GenState
  | [] => .ok st
  | (key, index, type) :: rest => do
    let st ← st.update key (.ifOp id index type)
    st.updateAll id rest

/-- The lambda `merge`: a variable that only the other branch updates has the
value before the branches. -/
def mergeTable (st : GenState) (source dest : UpdateTable) : UpdateTable :=
  dest.insertMissing (source.keys.map fun k => (k, (st.value? k).getD .nopOp))

/-- The end of `mlirGen(IfElseExprAST)`. A variable that is not in the symbol table
any more has a null type. -/
def genIfOp (st : GenState) (cond : SsaValue) (thenTable elseTable : UpdateTable) :
    Except Failure GenState :=
  let elseTable := mergeTable st thenTable elseTable
  let thenTable := mergeTable st elseTable thenTable
  let keys := thenTable.keys
  match keys.mapM st.type? with
  | none => .error (.abort "IfOp: unexpected null result type")
  | some types =>
    let op := ⟨types, cond, keys.filterMap thenTable.find, keys.filterMap elseTable.find⟩
    { st with ifOps := st.ifOps ++ [op] }.updateAll st.ifOps.length
      (keys.zip (types.zipIdx.map Prod.swap))

mutual

/-- One statement of `mlirGen(ExprASTList)`. A reported error ends the generation, also
in a `return`, after which the source goes on. -/
def genStmt (structMap : StructMap) : Stmt → GenState → Except Failure GenState
  | .decl name type init, st => genDecl structMap name type init st
  | .expr e, st => do
    let (_, st) ← genExpr structMap e st
    .ok st
  | .ret none, st => .ok st
  | .ret (some e), st => do
    let (_, st) ← genExpr structMap e st
    .ok st
  | .ifElse cond thenExprs elseExprs, st => do
    let (cond, st) ← genExpr structMap cond st
    let thenEnd ← genStmts structMap thenExprs st.enterBranch
    let elseEnd ← genStmts structMap elseExprs thenEnd.leaveBranch.enterBranch
    genIfOp elseEnd.leaveBranch cond thenEnd.updateTable elseEnd.updateTable

def genStmts (structMap : StructMap) : List Stmt → GenState → Except Failure GenState
  | [], st => .ok st
  | s :: rest, st => do
    let st ← genStmt structMap s st
    genStmts structMap rest st

end

/-- Declare the arguments of a function. -/
def declareArgs : List (String × VarType) → List Ty → Nat → GenState → Except Failure GenState
  | (name, decl) :: params, type :: types, index, st => do
    let st ← st.declare name decl (.blockArg index type)
    declareArgs params types (index + 1) st
  | _, _, _, st => .ok st

/-- The beginning of `mlirGen(FunctionAST)` up to the scope of the body. -/
def enterFunction (globals : SymbolTable) (params : List (String × VarType)) :
    Except Failure GenState := do
  let argTypes ← params.mapM fun param => getVarType structMap param.2
  let st ← declareArgs params argTypes 0 ⟨globals.enter, [], 0, [], []⟩
  .ok { st with symbolTable := st.symbolTable.enter }

end Alkali
