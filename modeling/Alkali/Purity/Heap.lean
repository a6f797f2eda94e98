import Alkali.Dialect.Commute

/-!
# Operations on references

Before the passes bring a handler into value form, buffers and local tables are
objects that an `ep2.init` creates and that operations change in place. A value
is the list of its parts, where a part is plain data or a reference. What can be
seen of a value in an emitted event are the contents of the objects it refers to.
-/

namespace Alkali

open Function

/-- A part of a value. -/
inductive Atom (Val : Type)
  | data (v : Val)
  | addr (n : Nat)
  | global (name : String)
  deriving DecidableEq, Repr

/-- A value with references; a struct or an event has the parts of its fields. -/
abbrev RefVal (Val : Type) := List (Atom Val)

/-- What is seen of a part of a value. -/
inductive Shown (Val : Type)
  | data (v : Val)
  | object (buffer : List Val) (table : Val → Val)
  | global (name : String)

/-- The kinds of operations, with those that change a buffer in place. -/
inductive RefKind
  | base (k : OpKind)
  | extract
  | emit
  deriving DecidableEq, Repr

/-- An operation of a block. It is executed if its predicates hold, which is
always for an operation outside of a guard. -/
structure RefOp where
  kind : RefKind
  operands : List Value
  results : List (Value × Ty)
  preds : List (Value × Bool)
  deriving DecidableEq, Repr

/-- The meaning of the operations without state, and of contents as data. -/
structure RefInterp (Val : Type) where
  eval : OpKind → List (RefVal Val) → RefVal Val
  pack : List (Shown Val) → Val
  truth : RefVal Val → Bool
  atomic : Int → Val → Val → Val

/-- The state of a handler: its values, the tables, pools and contexts by name,
and the objects it has created. -/
@[ext] structure HeapState (Val : Type) where
  env : Value → RefVal Val
  cells : Cell → Val → Val
  tables : Nat → Val → Val
  buffers : Nat → List Val
  next : Nat
  trace : List (List (List (Shown Val)))

namespace RefKind

/-- `isPure` as the dialect declares it. -/
def isPure : RefKind → Bool
  | base k => k.isPure
  | extract => false
  | emit => false

/-- The operation creates an object. -/
def creates : RefKind → Bool
  | base (.init ty) => ty.isObject
  | _ => false

end RefKind

def RefOp.uses (o : RefOp) : List Value := o.preds.map Prod.fst ++ o.operands

def RefOp.binds (o : RefOp) : List Value := o.results.map Prod.fst

variable {Val : Type} [Inhabited Val]

namespace HeapState

variable (s : HeapState Val) (e : Value → RefVal Val)

/-- The state with other values. -/
def withEnv : HeapState Val := { s with env := e }

variable (v : RefVal Val)

/-- What is seen of a value. -/
def shown : List (Shown Val) :=
  v.map fun
    | .data d => .data d
    | .addr n => .object (s.buffers n) (s.tables n)
    | .global name => .global name

/-- The data that is stored for a value. -/
def content (I : RefInterp Val) (v : RefVal Val) : Val := I.pack (s.shown v)

/-- The entries of the table that a value refers to. -/
def entries : RefVal Val → Val → Val
  | .global name :: _ => s.cells (.table name)
  | .addr n :: _ => s.tables n
  | _ => fun _ => default

/-- The contents of the buffer that a value refers to. -/
def bufferOf : RefVal Val → List Val
  | .addr n :: _ => s.buffers n
  | _ => []

variable [DecidableEq Val]

def setCell (c : Cell) (key new : Val) : HeapState Val :=
  { s with cells := update s.cells c (update (s.cells c) key new) }

/-- Change an entry of the table that a value refers to. -/
def setEntry (v : RefVal Val) (key new : Val) : HeapState Val :=
  match v with
  | .global name :: _ => s.setCell (.table name) key new
  | .addr n :: _ =>
    { s with tables := update s.tables n (update (s.tables n) key new) }
  | _ => s

/-- Change the contents of the buffer that a value refers to. -/
def setBuffer (new : List Val) : HeapState Val :=
  match v with
  | .addr n :: _ => { s with buffers := update s.buffers n new }
  | _ => s

omit [Inhabited Val] in
theorem setEntry_env (v : RefVal Val) (key new : Val) :
    (s.withEnv e).setEntry v key new = (s.setEntry v key new).withEnv e := by
  rcases v with _ | ⟨a, v⟩
  · rfl
  · cases a <;> rfl

omit [Inhabited Val] [DecidableEq Val] in
theorem setBuffer_env (v : RefVal Val) (new : List Val) :
    (s.withEnv e).setBuffer v new = (s.setBuffer v new).withEnv e := by
  rcases v with _ | ⟨a, v⟩
  · rfl
  · cases a <;> rfl

omit [Inhabited Val] in
@[simp] theorem setEntry_next (key new : Val) : (s.setEntry v key new).next = s.next := by
  rcases v with _ | ⟨a, v⟩
  · rfl
  · cases a <;> rfl

omit [Inhabited Val] [DecidableEq Val] in
@[simp] theorem setBuffer_next (new : List Val) : (s.setBuffer v new).next = s.next := by
  rcases v with _ | ⟨a, v⟩
  · rfl
  · cases a <;> rfl

/-- A new empty object. -/
def alloc : HeapState Val :=
  { s with
    tables := update s.tables s.next fun _ => default
    buffers := update s.buffers s.next []
    next := s.next + 1 }

/-- The tables, pools and contexts by name, the contents of the objects that the
handler was given, and the emitted events. -/
def observe (given : Nat) : (Cell → Val → Val) × List (List Val × (Val → Val)) ×
    List (List (List (Shown Val))) :=
  (s.cells, (List.range given).map fun n => (s.buffers n, s.tables n), s.trace)

end HeapState

namespace RefKind

variable (I : RefInterp Val) (k : RefKind) (args : List (RefVal Val)) (s : HeapState Val)

/-- The entry of a table, a pool or a context that an operation reads. -/
def reads : Option Val :=
  match k with
  | .base (.lookup _) => some (s.entries (args.getD 0 []) (s.content I (args.getD 1 [])))
  | .base (.bufferPoolFetch p) => some (s.cells (.bufferPool p) (s.content I (args.getD 1 [])))
  | .base (.load f) => some (s.cells (.context f) (s.content I (args.getD 0 [])))
  | _ => none

/-- The value that an operation produces from the values of its operands. -/
def value : RefVal Val :=
  match k with
  | .base (.lookup _) | .base (.bufferPoolFetch _) | .base (.load _) =>
    (k.reads I args s).toList.map .data
  | .base (.globalImport name) => [.global name]
  | .base (.init ty) => if ty.isObject then [.addr s.next] else I.eval (.init ty) args
  | .base k => I.eval k args
  | .extract => [.data ((s.bufferOf (args.getD 0 [])).headD default)]
  | .emit => []

variable [DecidableEq Val]

/-- What an operation does to the tables, the buffers and the trace. -/
def effect : HeapState Val :=
  match k with
  | .base (.update _) =>
    s.setEntry (args.getD 0 []) (s.content I (args.getD 1 [])) (s.content I (args.getD 2 []))
  | .base (.updateAtomic _ opValue) =>
    let key := s.content I (args.getD 1 [])
    let old := s.entries (args.getD 0 []) key
    s.setEntry (args.getD 0 []) key (I.atomic opValue old (s.content I (args.getD 2 [])))
  | .base (.bufferPoolCommit p) =>
    s.setCell (.bufferPool p) (s.content I (args.getD 1 [])) (s.content I (args.getD 2 []))
  | .base (.store f) =>
    s.setCell (.context f) (s.content I (args.getD 0 [])) (s.content I (args.getD 1 []))
  | .base (.init ty) => if ty.isObject then s.alloc else s
  | .base .ret => { s with trace := s.trace ++ [args.map s.shown] }
  | .extract => s.setBuffer (args.getD 0 []) (s.bufferOf (args.getD 0 [])).tail
  | .emit =>
    s.setBuffer (args.getD 0 []) (s.content I (args.getD 1 []) :: s.bufferOf (args.getD 0 []))
  | _ => s

end RefKind

namespace RefOp

variable (I : RefInterp Val) (o : RefOp) (s : HeapState Val)

def args : List (RefVal Val) := o.operands.map s.env

/-- The predicates of the guard hold. -/
def enabled : Bool := o.preds.all fun p => I.truth (s.env p.1) == p.2

variable [DecidableEq Val]

/-- Execute an operation. -/
def step : HeapState Val :=
  if o.enabled I s then
    (o.kind.effect I (o.args s) s).withEnv
      (setResults o.binds [o.kind.value I (o.args s) s] s.env)
  else s

/-- Execute the operations of a block. -/
def run (I : RefInterp Val) : List RefOp → HeapState Val → HeapState Val
  | [], s => s
  | o :: ops, s => run I ops (o.step I s)

end RefOp

end Alkali
