import Alkali.MLIRGen.StraightLine
import Mathlib.Data.List.Sort

/-!
# What code assigns

The assignments of a list of statements, in the order in which they are made,
with the generated values of their right-hand sides. The last one decides: an
assignment replaces the value of the variable, or of the field inside it that
its path names. A conditional assigns its results.
-/

namespace Alkali

structure VarWrite where
  name : String
  fields : List String
  value : SsaValue

namespace SsaValue

/-- Replace the value at the end of a path. -/
def setPath (value : SsaValue) : List (Nat × Ty) → SsaValue → SsaValue
  | [], v => v
  | (index, type) :: steps, v =>
    .structUpdateOp value index (setPath (.structAccessOp value index type) steps v)

/-- An integer is cast to the width of the place that it goes to. -/
def convertTo (value : SsaValue) (type : Ty) : SsaValue :=
  if value.type.isInt ∧ type.isInt ∧ value.type ≠ type then .bitCastOp value type else value

def isContextRef : SsaValue → Bool
  | contextRefOp _ _ => true
  | _ => false

end SsaValue

section

variable (structMap : StructMap)

/-- The variable after an assignment to it. -/
def Entry.assign (entry : Entry) (w : VarWrite) : Entry :=
  match declaredSteps structMap entry.decl w.fields with
  | some steps => { entry with
      value := entry.value.setPath steps (w.value.convertTo (endType entry.type steps)) }
  | none => entry

/-- The variable `x` after a list of assignments. -/
def Entry.assignAll (x : String) (log : List VarWrite) (entry : Entry) : Entry :=
  (log.filter (·.name = x)).foldl (Entry.assign structMap) entry

/-- The value of an expression and the state after it, where it is generated. -/
def Expr.generated (e : Expr) (st : GenState) : SsaValue × GenState :=
  (genExpr structMap e st).toOption.getD (.nopOp, st)

def Stmt.generated (s : Stmt) (st : GenState) : GenState :=
  (genStmt structMap s st).toOption.getD st

/-- The state after a branch. -/
def branchEnd (stmts : List Stmt) (st : GenState) : GenState :=
  (genStmts structMap stmts st.enterBranch).toOption.getD st.enterBranch

end

/-- An assignment to an expression with the value `lhs`. One to a field of a context
is a store. -/
def Expr.write : Expr → SsaValue → SsaValue → List VarWrite
  | path head fields, lhs, value =>
    if lhs.isContextRef ∧ fields ≠ [] then [] else [⟨head, fields, value⟩]
  | _, _, _ => []

mutual

def Expr.writes (structMap : StructMap) : Expr → GenState → List VarWrite
  | .num _, _ | .literal _, _ | .path _ _, _ => []
  | .binop _ l r, st =>
    let left := l.generated structMap st
    l.writes structMap st ++ r.writes structMap (toRValue left.2 left.1 none).2
  | .assign l r, st =>
    let left := l.generated structMap st
    let right := r.generated structMap left.2
    l.writes structMap st ++ r.writes structMap left.2 ++
      l.write left.1 (toRValue right.2 right.1 (some left.1.type)).1
  | .extract path target, st => target.writes structMap st ++
      target.write .nopOp ((Expr.extract path target).generated structMap st).1
  | .call path method args, st => argsWrites structMap false args st ++
      if method = .set then
        [⟨path.headD "", path.tail, ((Expr.call path method args).generated structMap st).1⟩]
      else []
  | .init _ args, st => argsWrites structMap true args st

def argsWrites (structMap : StructMap) (load : Bool) : List Expr → GenState → List VarWrite
  | [], _ => []
  | e :: rest, st =>
    let arg := e.generated structMap st
    e.writes structMap st ++ argsWrites structMap load rest
      (if load then (toRValue arg.2 arg.1 none).2 else arg.2)

end

/-- The variables that a conditional assigns: those among the names that are visible
before it, in order. -/
def resultNames (before : GenState) (names : List String) : List String :=
  ((names.filter fun x => (before.symbolTable.lookup x).isSome).dedup).insertionSort (· ≤ ·)

/-- The results of the conditional with the number `id`. -/
def ifWrites (before : GenState) (id : Nat) (names : List String) : List VarWrite :=
  names.zipIdx.map fun (x, i) => ⟨x, [], .ifOp id i ((before.type? x).getD .none)⟩

mutual

def Stmt.writes (structMap : StructMap) : Stmt → GenState → List VarWrite
  | .decl _ _ none, _ | .ret none, _ => []
  | .decl _ _ (some e), st | .ret (some e), st | .expr e, st => e.writes structMap st
  | .ifElse cond thenExprs elseExprs, st =>
    let before := (cond.generated structMap st).2
    let middle := (branchEnd structMap thenExprs before).leaveBranch
    let assigned := writesIn structMap thenExprs before.enterBranch ++
      writesIn structMap elseExprs middle.enterBranch
    cond.writes structMap st ++ ifWrites before
      (branchEnd structMap elseExprs middle).ifOps.length
      (resultNames before (assigned.map VarWrite.name))

/-- The assignments of a list of statements. -/
def writesIn (structMap : StructMap) : List Stmt → GenState → List VarWrite
  | [], _ => []
  | s :: rest, st =>
    s.writes structMap st ++ writesIn structMap rest (s.generated structMap st)

end

/-- The variables that a list of statements declares in its own scope. -/
def Stmt.declared : Stmt → List String
  | decl name _ _ => [name]
  | _ => []

def declaredIn (stmts : List Stmt) : List String := stmts.flatMap Stmt.declared

section

/-- What the generator needs to take an assignment for what it is: a variable is not
bound to a field or an argument, a field is one of the variable's present value, and
the types fit. -/
def WellAssigned (target : Expr) (lhs rhs : SsaValue) (st : GenState) : Prop :=
  match target with
  | .path _ [] => lhs.rebindable ∧ Assignable rhs.type lhs.type
  | .path head (_ :: fields) => lhs.isContextRef ∨ fields = [] ∧ lhs.input? = st.value? head ∧
      (rhs.type = lhs.type ∨ rhs.isConstant ∧ lhs.type.isInt)
  | _ => True

/-- Extracted values go to variables. -/
def Expr.isVariable : Expr → Bool
  | path _ (_ :: _) => false
  | _ => true

mutual

/-- Every assignment in an expression is one that the generator gets right. -/
def Expr.WellAssigned (structMap : StructMap) : Expr → GenState → Prop
  | .num _, _ | .literal _, _ | .path _ _, _ => True
  | .binop _ l r, st =>
    let left := l.generated structMap st
    l.WellAssigned structMap st ∧ r.WellAssigned structMap (toRValue left.2 left.1 none).2
  | .assign l r, st =>
    let left := l.generated structMap st
    let right := r.generated structMap left.2
    let rvalue := toRValue right.2 right.1 (some left.1.type)
    l.WellAssigned structMap st ∧ r.WellAssigned structMap left.2 ∧
      Alkali.WellAssigned l left.1 rvalue.1 rvalue.2
  | .extract _ target, st => target.WellAssigned structMap st ∧ target.isVariable
  | .call path method args, st =>
    argsWellAssigned structMap false args st ∧ (method = .set → path.tail = [])
  | .init _ args, st => argsWellAssigned structMap true args st

def argsWellAssigned (structMap : StructMap) (load : Bool) : List Expr → GenState → Prop
  | [], _ => True
  | e :: rest, st =>
    let arg := e.generated structMap st
    e.WellAssigned structMap st ∧ argsWellAssigned structMap load rest
      (if load then (toRValue arg.2 arg.1 none).2 else arg.2)

end

mutual

/-- The same for a statement, with the branches of conditionals. -/
def Stmt.WellAssigned (structMap : StructMap) : Stmt → GenState → Prop
  | .decl _ _ none, _ | .ret none, _ => True
  | .decl _ _ (some e), st | .ret (some e), st | .expr e, st => e.WellAssigned structMap st
  | .ifElse cond thenExprs elseExprs, st =>
    let before := (cond.generated structMap st).2
    let middle := (branchEnd structMap thenExprs before).leaveBranch
    cond.WellAssigned structMap st ∧
      WellAssignedIn structMap thenExprs before.enterBranch ∧
      WellAssignedIn structMap elseExprs middle.enterBranch

def WellAssignedIn (structMap : StructMap) : List Stmt → GenState → Prop
  | [], _ => True
  | s :: rest, st =>
    s.WellAssigned structMap st ∧ WellAssignedIn structMap rest (s.generated structMap st)

end

end

end Alkali
