import Alkali.Dialect.Types

/-!
# The syntax trees that `MLIRGen` reads

Expressions name, compute, assign and extract values, call methods and build
events. A call of a function is left out: `mlirGen(CallExprAST)` asks for the
first result of a function type without results and aborts.
-/

namespace Alkali

mutual

/-- A type by its name and its template parameters. -/
inductive VarType
  | mk (name : String) (params : List VarTemplateParam)

inductive VarTemplateParam
  | integer (value : Nat)
  | type (type : VarType)

end

def VarType.name : VarType → String
  | mk name _ => name

structure StructField where
  name : String
  type : VarType
  hasInit : Bool

structure StructAST where
  isEvent : Bool
  name : String
  structVars : List StructField

inductive BinOp
  | add
  | sub
  | mul
  | div
  | eq
  | ge
  | le
  | lt
  | gt
  deriving DecidableEq, Repr

/-- The methods other than `extract`. -/
inductive Method
  | emit
  | lookup
  | update
  | set
  | get
  deriving DecidableEq, Repr

/-- A literal is an atom, a port or a struct of numbers. -/
inductive Expr
  | num (value : Nat)
  | literal (type : Ty)
  | path (head : String) (fields : List String)
  | binop (op : BinOp) (lhs rhs : Expr)
  | assign (lhs rhs : Expr)
  | extract (caller : List String) (target : Expr)
  | call (caller : List String) (method : Method) (args : List Expr)
  | init (type : VarType) (args : List Expr)

/-- Induction over an expression, with the arguments of a call as parts of it. -/
@[induction_eliminator]
theorem Expr.induction {motive : Expr → Prop} (num : ∀ value, motive (num value))
    (literal : ∀ type, motive (literal type)) (path : ∀ head fields, motive (path head fields))
    (binop : ∀ op l r, motive l → motive r → motive (binop op l r))
    (assign : ∀ l r, motive l → motive r → motive (assign l r))
    (extract : ∀ caller target, motive target → motive (extract caller target))
    (call : ∀ caller method args, (∀ e ∈ args, motive e) → motive (call caller method args))
    (init : ∀ type args, (∀ e ∈ args, motive e) → motive (init type args)) (e : Expr) :
    motive e := by
  refine Expr.rec (motive_1 := motive) (motive_2 := fun args => ∀ e ∈ args, motive e)
    num literal path binop assign extract call init ?_ ?_ e
  · exact nofun
  · intro e args he hargs
    exact List.forall_mem_cons.mpr ⟨he, hargs⟩

/-- A conditional without an else branch has the empty list there. -/
inductive Stmt
  | decl (name : String) (type : VarType) (init : Option Expr)
  | expr (e : Expr)
  | ret (value : Option Expr)
  | ifElse (cond : Expr) (thenExprs elseExprs : List Stmt)

end Alkali
