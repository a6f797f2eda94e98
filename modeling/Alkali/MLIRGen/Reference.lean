import Alkali.MLIRGen.Paths

/-!
# Straight-line code with ordinary variables

A store has a value for every declared variable. An assignment replaces the
value of one variable, or of one field inside it. The values are those of any
model of the operations of the language.
-/

namespace Alkali

/-- Values with the operations of the language. Setting a field changes this
field and no other one. -/
structure ValueModel (D : Type) where
  param : Nat → D
  const : Nat → D
  init : Ty → D
  binary : BinOp → Ty → D → D → D
  bitCast : Ty → Ty → D → D
  field : Nat → D → D
  setField : Nat → D → D → D
  extract : Nat → D → Ty → D
  other : SsaValue → D
  field_setField_self : ∀ i d v, field i (setField i d v) = v
  field_setField_of_ne : ∀ i j d v, j ≠ i → field j (setField i d v) = field j d

namespace ValueModel

variable {D : Type} (M : ValueModel D)

/-- The value that an operation computes. -/
def denote : SsaValue → D
  | .blockArg index _ => M.param index
  | .constantOp value => M.const value
  | .initOp type => M.init type
  | .structAccessOp input index _ => M.field index (denote input)
  | .structUpdateOp input index newValue => M.setField index (denote input) (denote newValue)
  | .bitCastOp value type => M.bitCast value.type type (denote value)
  | .binaryOp op lhs rhs => M.binary op lhs.type (denote lhs) (denote rhs)
  | .extractOp id buffer type => M.extract id (denote buffer) type
  | value => M.other value

/-- An integer is converted to the width of the place that it goes to. -/
def convert (source target : Ty) (d : D) : D :=
  match source, target with
  | .int w, .int w' => if w = w' then d else M.bitCast source target d
  | _, _ => d

theorem convert_self (type : Ty) (d : D) : M.convert type type d = d := by
  cases type with
  | int w => exact if_pos rfl
  | _ => rfl

/-- The value at the end of a path. -/
def path : D → List (Nat × Ty) → D
  | d, [] => d
  | d, (index, _) :: steps => path (M.field index d) steps

/-- Replace the value at the end of a path. -/
def setPath : D → List (Nat × Ty) → D → D
  | _, [], v => v
  | d, (index, _) :: steps, v => M.setField index d (setPath (M.field index d) steps v)

theorem denote_accessPath (value : SsaValue) (steps : List (Nat × Ty)) :
    M.denote (accessPath value steps) = M.path (M.denote value) steps := by
  induction steps generalizing value with
  | nil => rfl
  | cons step steps ih => rw [accessPath, ih, denote, path]

end ValueModel

/-- The type at the end of a path. -/
def endType : Ty → List (Nat × Ty) → Ty
  | type, [] => type
  | _, (_, type) :: steps => endType type steps

theorem type_accessPath (value : SsaValue) (steps : List (Nat × Ty)) :
    (accessPath value steps).type = endType value.type steps := by
  induction steps generalizing value with
  | nil => rfl
  | cons step steps ih => rw [accessPath, ih, SsaValue.type, endType]

def Expr.isLiteral : Expr → Bool
  | num _ => true
  | _ => false

def Ty.isInt : Ty → Bool
  | int _ => true
  | _ => false

theorem Ty.isInt_iff {type : Ty} : type.isInt = true ↔ ∃ width, type = .int width := by
  cases type <;> simp [isInt]

/-- Values of the first type can be assigned to variables of the second type. -/
def Assignable (source target : Ty) : Prop :=
  source = target ∨ source.isInt = true ∧ target.isInt = true

theorem Assignable.refl (type : Ty) : Assignable type type := Or.inl rfl

instance (source target : Ty) : Decidable (Assignable source target) :=
  inferInstanceAs (Decidable (_ ∨ _))

/-- The common type of two operands; a literal takes the type of the other operand. -/
def operandType (l r : Expr) (lt rt : Ty) : Option Ty :=
  if lt = rt then some lt
  else if l.isLiteral ∧ rt.isInt then some rt
  else if r.isLiteral ∧ lt.isInt then some lt
  else none

def BinOp.resultType : BinOp → Ty → Ty
  | add, type | sub, type | mul, type | div, type => type
  | eq, _ | ge, _ | le, _ | lt, _ | gt, _ => .int 1

/-- The declared variables with their values, and the number of extractions so far. -/
structure Store (D : Type) where
  scope : String → Option (VarType × Ty)
  value : String → D
  extracts : Nat

namespace Store

variable {D : Type}

def declare (store : Store D) (name : String) (decl : VarType) (type : Ty) (d : D) : Store D :=
  { store with
    scope := Function.update store.scope name (some (decl, type))
    value := Function.update store.value name d }

def set (store : Store D) (name : String) (d : D) : Store D :=
  { store with value := Function.update store.value name d }

/-- The parameters of a handler when it is entered. -/
def atEntry (M : ValueModel D) (structMap : StructMap) (params : List (String × VarType)) :
    Store D where
  scope name := do
    let index ← params.findIdx? (·.1 == name)
    let (_, decl) ← params[index]?
    let type ← (getVarType structMap decl).toOption
    some (decl, type)
  value name := M.param ((params.findIdx? (·.1 == name)).getD 0)
  extracts := 0

end Store

section Exec

variable {D : Type} (M : ValueModel D) (structMap : StructMap)

/-- The type of a path and its steps. -/
def Store.resolve (store : Store D) (head : String) (fields : List String) :
    Option (Ty × List (Nat × Ty)) := do
  let (decl, type) ← store.scope head
  let steps ← declaredSteps structMap decl fields
  some (endType type steps, steps)

theorem Store.resolve_eq_some {store : Store D} {head : String} {fields : List String} {type : Ty}
    {steps : List (Nat × Ty)} :
    store.resolve structMap head fields = some (type, steps) ↔
      ∃ decl varType, store.scope head = some (decl, varType) ∧
        declaredSteps structMap decl fields = some steps ∧ endType varType steps = type := by
  simp [resolve, Option.bind_eq_some_iff]

/-- The type and the value of an expression without effects. -/
def evalExpr (store : Store D) : Expr → Option (Ty × D)
  | .num value => some (.int 64, M.const value)
  | .path head fields => do
    let (type, steps) ← store.resolve structMap head fields
    some (type, M.path (store.value head) steps)
  | .binop op l r => do
    let (lt, lhs) ← evalExpr store l
    let (rt, rhs) ← evalExpr store r
    let type ← operandType l r lt rt
    some (op.resultType type, M.binary op type (M.convert lt type lhs) (M.convert rt type rhs))
  | .literal _ | .assign _ _ | .extract _ _ | .call _ _ _ | .init _ _ => none

/-- The type of a variable that is declared with an initial value. -/
def initializedType (decl : VarType) (source : Ty) : Option Ty :=
  if decl.name = "" then some source else (getVarType structMap decl).toOption

/-- One statement of straight-line code. -/
def execStmt (store : Store D) : Stmt → Option (Store D)
  | .decl name decl none => do
    let type ← (getVarType structMap decl).toOption
    some (store.declare name decl type (M.init type))
  | .decl name decl (some e) => do
    let (source, d) ← evalExpr M structMap store e
    let type ← initializedType structMap decl source
    if Assignable source type then
      some (store.declare name decl type (M.convert source type d))
    else none
  | .expr (.assign (.path head fields) e) => do
    let (type, steps) ← store.resolve structMap head fields
    let (source, d) ← evalExpr M structMap store e
    if Assignable source type then
      some (store.set head (M.setPath (store.value head) steps (M.convert source type d)))
    else none
  | .expr (.extract (caller :: callerFields) (.path head fields)) => do
    let (_, buffer) ← evalExpr M structMap store (.path caller callerFields)
    let (type, steps) ← store.resolve structMap head fields
    let extracted := M.extract store.extracts buffer type
    some { store.set head (M.setPath (store.value head) steps extracted) with
      extracts := store.extracts + 1 }
  | .expr e => do
    let _ ← evalExpr M structMap store e
    some store
  | .ret _ | .ifElse _ _ _ => none

def execStmts (store : Store D) : List Stmt → Option (Store D)
  | [] => some store
  | s :: rest => do
    let store ← execStmt M structMap store s
    execStmts store rest

end Exec

end Alkali
