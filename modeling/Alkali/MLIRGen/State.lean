import Alkali.Library.Fallible
import Alkali.Library.OrderedMap
import Alkali.Library.ScopedTable
import Alkali.MLIRGen.Ast
import Mathlib.Data.String.Basic

/-!
# The state of `MLIRGen`

An SSA value is the operation that defines it with its operands. Operations
whose result is not determined by their operands carry a number, and so do
literals, lookups, bit operations and initializations, whose operands nothing
reads. Conditionals are recorded, with the values that their branches yield.
-/

namespace Alkali

inductive SsaValue
  | blockArg (index : Nat) (type : Ty)
  | globalOp (name : String) (type : Ty)
  | constantOp (value : Nat)
  | initOp (type : Ty)
  | nopOp
  | globalImportOp (name : String) (type : Ty)
  | contextRefOp (name : String) (context : SsaValue)
  | loadOp (id : Nat) (ref : SsaValue) (type : Ty)
  | structAccessOp (input : SsaValue) (index : Nat) (type : Ty)
  | structUpdateOp (input : SsaValue) (index : Nat) (newValue : SsaValue)
  | bitCastOp (value : SsaValue) (type : Ty)
  | binaryOp (op : BinOp) (lhs rhs : SsaValue)
  | extractOp (id : Nat) (buffer : SsaValue) (type : Ty)
  | ifOp (id index : Nat) (type : Ty)
  | otherOp (id : Nat) (type : Ty)
  deriving DecidableEq, Repr

namespace SsaValue

/-- `ep2.mul` is built with a result type of its own. -/
def type : SsaValue → Ty
  | blockArg _ ty | globalOp _ ty | initOp ty | globalImportOp _ ty | loadOp _ _ ty
  | structAccessOp _ _ ty | bitCastOp _ ty | extractOp _ _ ty | ifOp _ _ ty | otherOp _ ty => ty
  | constantOp _ => .int 64
  | nopOp => .none
  | contextRefOp _ _ => .contextRef .any
  | structUpdateOp input _ _ => input.type
  | binaryOp op lhs _ =>
    match op with
    | .add | .sub | .div => lhs.type
    | .mul => .f64Tensor
    | .eq | .ge | .le | .lt | .gt => .int 1

def isBlockArg : SsaValue → Bool
  | blockArg _ _ => true
  | _ => false

def isConstant : SsaValue → Bool
  | constantOp _ => true
  | _ => false

end SsaValue

/-- An error that is reported, or a failed assertion or access to a null pointer. -/
inductive Failure
  | error (message : String)
  | abort (reason : String)
  deriving DecidableEq, Repr

/-- The value of a variable, its type and its declared type. -/
structure Entry where
  value : SsaValue
  type : Ty
  decl : VarType

abbrev SymbolTable := ScopedTable String Entry

abbrev UpdateTable := OrderedMap String SsaValue

/-- `scf.if` with the values that the branches yield. -/
structure IfOp where
  types : List Ty
  cond : SsaValue
  thenYields : List SsaValue
  elseYields : List SsaValue
  deriving DecidableEq, Repr

structure GenState where
  symbolTable : SymbolTable
  updateTables : List UpdateTable
  next : Nat
  stores : List (SsaValue × SsaValue)
  ifOps : List IfOp

namespace GenState

variable (st : GenState)

/-- Open the scope of a branch, with an update table of its own. -/
def enterBranch : GenState :=
  { st with
    symbolTable := st.symbolTable.enter
    updateTables := .empty :: st.updateTables }

def leaveBranch : GenState :=
  { st with
    symbolTable := st.symbolTable.leave
    updateTables := st.updateTables.tail }

/-- The update table of the innermost branch. -/
def updateTable : UpdateTable := st.updateTables.headD .empty

def type? (x : String) : Option Ty := (st.symbolTable.lookup x).map Entry.type

def value? (x : String) : Option SsaValue :=
  (st.symbolTable.lookup x).map Entry.value

/-- The next numbered operation. -/
def createOp (type : Ty) : SsaValue × GenState :=
  (.otherOp st.next type, { st with next := st.next + 1 })

/-- `declare`: fails if the name is in the table already. -/
def declare (name : String) (decl : VarType) (value : SsaValue) : Except Failure GenState :=
  match st.symbolTable.lookup name with
  | some _ => .error (.error "")
  | none =>
    .ok { st with symbolTable := st.symbolTable.insert name ⟨value, value.type, decl⟩ }

end GenState

/-- The location of a cast is that of the operation that defines the value. -/
def tryCast (value : SsaValue) (type : Ty) : Except Failure SsaValue :=
  match value.type, type with
  | .int w, .int w' =>
    if w = w' then .ok value
    else if value.isBlockArg then .error (.abort "tryCast: no defining operation")
    else .ok (.bitCastOp value type)
  | _, _ => .ok value

theorem tryCast_type (value : SsaValue) : tryCast value value.type = .ok value := by
  unfold tryCast
  split
  · next w w' hw hw' =>
      rw [hw] at hw'
      cases hw'
      exact if_pos rfl
  · rfl

/-- `update` of a variable: the new value goes to the innermost scope, and to the
update table of the branch. -/
def GenState.update (st : GenState) (varName : String) (value : SsaValue) :
    Except Failure GenState :=
  match st.symbolTable.lookup varName with
  | none => .error (.abort "update: null type")
  | some entry => do
    let newValue ← tryCast value entry.type
    .ok { st with
      symbolTable := st.symbolTable.insert varName { entry with value := newValue }
      updateTables :=
        match st.updateTables with
        | [] => []
        | top :: rest => top.insertOrAssign varName newValue :: rest }

/-- `update` of the variable at the head of a path. -/
def GenState.updateTarget (st : GenState) (target : Expr) (value : SsaValue) :
    Except Failure GenState :=
  match target with
  | .path head _ => st.update head value
  | _ => .ok st

end Alkali
