import Alkali.Dialect.Ops
import Alkali.Library.Reorder

/-!
# Execution of operations

The meaning of the operations without state is a parameter. Tables, buffer
pools and context fields are functions from keys to values, and an `ep2.return`
emits its operands without ending the handler. A run records the operations
that an observer asks for, with the values of their operands.
-/

namespace Alkali

/-- The meaning of the operations that do not touch state. -/
structure Interp (Val : Type) where
  eval : OpKind → List Val → List Val
  truth : Val → Bool
  atomic : Int → Val → Val → Val

/-- A recorded operation with the values of its operands. -/
abbrev Effect (Val : Type) := OpKind × List Val

/-- The state of a running handler. -/
@[ext] structure State (Val : Type) where
  env : Value → Val
  cells : Cell → Val → Val
  trace : List (Effect Val)

variable {Val : Type} [Inhabited Val]

namespace OpKind

/-- The key of an access: the reference itself for a context field, otherwise
the operand after the table or the pool. -/
def key (k : OpKind) (args : List Val) : Val :=
  match k with
  | load _ | store _ => args.getD 0 default
  | _ => args.getD 1 default

/-- The value that an access stores under its key. -/
def stored (I : Interp Val) (k : OpKind) (args : List Val) (old : Val) : Val :=
  match k with
  | store _ => args.getD 1 default
  | updateAtomic _ opValue => I.atomic opValue old (args.getD 2 default)
  | _ => args.getD 2 default

/-- The values that an operation produces. -/
def outputs (I : Interp Val) (k : OpKind) (args : List Val) (cells : Cell → Val → Val) : List Val :=
  match k.reads with
  | some c => [cells c (k.key args)]
  | none => I.eval k args

variable [DecidableEq Val]

/-- The state after the operation's write. -/
def write (I : Interp Val) (k : OpKind) (args : List Val) (cells : Cell → Val → Val) :
    Cell → Val → Val :=
  match k.writes with
  | some c =>
    Function.update cells c
      (Function.update (cells c) (k.key args)
        (k.stored I args (cells c (k.key args))))
  | none => cells

end OpKind

/-- Bind the results of an operation. -/
def setResults (results : List Value) (outs : List Val) (env : Value → Val) : Value → Val :=
  fun v => if v ∈ results then outs.getD (results.idxOf v) default else env v

/-- The state in which a function is called. -/
def initialState (args : List Value) (inputs : List Val) (cells : Cell → Val → Val) :
    State Val where
  env := setResults args inputs fun _ => default
  cells := cells
  trace := []

/-- The observer of emitted events. -/
def events (k : OpKind) : Bool := k == .ret

/-- The observer that records nothing. -/
def silent (_ : OpKind) : Bool := false

variable [DecidableEq Val] (I : Interp Val) (obs : OpKind → Bool)

/-- Execute one operation without regions. -/
def PlainOp.step (o : PlainOp) (s : State Val) : State Val :=
  let args := o.operands.map s.env
  { env := setResults (o.results.map Prod.fst) (o.kind.outputs I args s.cells) s.env
    cells := o.kind.write I args s.cells
    trace := s.trace ++ if obs o.kind then [(o.kind, args)] else [] }

/-- A guard lets its body run when every predicate has the required value. -/
def guardHolds (preds : List Value) (predAttrs : List Bool) (env : Value → Val) : Bool :=
  (preds.zip predAttrs).all fun p => I.truth (env p.1) == p.2

/-- Execute one operation. -/
def Operation.step (o : Operation) (s : State Val) : State Val :=
  match o with
  | .plain op => op.step I obs s
  | .guard _ preds predAttrs body =>
    if guardHolds I preds predAttrs s.env then body.step I obs s else s

/-- Execute a list of operations in order. -/
def exec (ops : List Operation) (s : State Val) : State Val :=
  Reorder.run (Operation.step I obs) ops s

@[simp] theorem exec_nil (s : State Val) : exec I obs [] s = s := rfl

@[simp] theorem exec_cons (o : Operation) (ops : List Operation) (s : State Val) :
    exec I obs (o :: ops) s = exec I obs ops (o.step I obs s) := rfl

@[simp] theorem exec_append (ops ops' : List Operation) (s : State Val) :
    exec I obs (ops ++ ops') s = exec I obs ops' (exec I obs ops s) := by
  simp [exec]

end Alkali
