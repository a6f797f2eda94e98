import Alkali.Linearize.Cfg

/-!
# Lowering of events

Both code generators send an event where it is initialised: the raw LLVM lowering
replaces the `InitOp` of an event by a call of its handler, the Netronome lowering
by an enqueue of a work item. A `ReturnOp` is erased. The other operations are
translated one by one and keep their meaning.
-/

namespace Alkali

/-- The name of a handler. -/
structure HandlerFullName where
  event : String
  atom : String
  deriving DecidableEq, Repr

def HandlerFullName.mangle (n : HandlerFullName) : String :=
  "__handler_" ++ n.event ++ if n.atom = "" then "" else "_" ++ n.atom

/-- The code generators: `InitOpToEventRawPattern` with or without wrappers, and
`InitPattern` of the Netronome lowering. -/
inductive Backend
  | rawLLVM (createWrapper : Bool)
  | netronome
  deriving DecidableEq, Repr

/-- What is executed to send an event. -/
inductive SendTarget
  | call (callee : String)
  | inlinedNetSend
  | enqWork (event : String)
  deriving DecidableEq, Repr

/-- A call or an enqueue in the generated code, with the value of the event that it
was made for. -/
structure SendOp where
  event : Value
  target : SendTarget
  args : List Value
  deriving DecidableEq, Repr

/-- The operations of the generated code. -/
inductive LoweredOp
  | keep (o : Operation)
  | send (d : SendOp)
  | replace (result source : Value)
  deriving DecidableEq, Repr

structure LoweredBlock where
  args : List (Value × Ty)
  ops : List LoweredOp
  term : Terminator
  deriving DecidableEq, Repr

/-- A handler in the generated code. -/
structure LoweredFunc where
  blocks : List LoweredBlock
  deriving DecidableEq, Repr

/-- The event that an operation initialises. -/
def PlainOp.event? (op : PlainOp) : Option (String × Value) :=
  match op.kind, op.results with
  | .init (.struct true _ name), [(v, _)] => some (name, v)
  | _, _ => none

def Operation.event? : Operation → Option (String × Value)
  | plain op => op.event?
  | guard _ _ _ _ => none

/-- The event that a `ReturnOp` returns. -/
def Operation.returned : Operation → List Value
  | plain op => if op.kind = .ret then op.operands.take 1 else []
  | guard _ _ _ _ => []

namespace FuncOp

variable (f : FuncOp)

/-- `setWithInit`: the atom of an event is a constant. The code asserts that there
is an operand and that a constant in its place is text. -/
def fullName (event : String) (operands : List Value) : Option HandlerFullName :=
  match operands with
  | [] => none
  | v :: _ =>
    match (f.definingOp v).bind Operation.kind? with
    | some (.constant c) => if f.typeOf v = some .atom then some ⟨event, c⟩ else none
    | _ => some ⟨event, ""⟩

/-- The operands of an event without its atom. -/
def mapped (operands : List Value) : List Value :=
  match operands with
  | [] => []
  | v :: vs => if f.typeOf v = some .atom then vs else v :: vs

end FuncOp

namespace Backend

variable (B : Backend) (f : FuncOp)

/-- How an event is sent. The raw LLVM lowering needs an argument, as it takes the
first one in place of the event. -/
def eventSend (op : PlainOp) : Option SendOp :=
  match op.event? with
  | none => none
  | some (name, v) =>
    match B with
    | rawLLVM createWrapper =>
      match f.fullName name op.operands, f.mapped op.operands with
      | some n, a :: args =>
        some ⟨v, .call ((if createWrapper then "__wrapper__" else "") ++ n.mangle), a :: args⟩
      | _, _ => none
    | netronome =>
      some ⟨v, if name = "NET_SEND" then .inlinedNetSend else .enqWork name, op.operands.drop 1⟩

/-- What takes the place of the `InitOp` of an event: the Netronome lowering has a
pointer to the event, the raw LLVM lowering goes on with the first argument. -/
def replaceInit (op : PlainOp) (d : SendOp) : List LoweredOp :=
  match B with
  | rawLLVM _ => [.send d, .replace d.event (d.args.headD d.event)]
  | netronome => [.send d, .keep (.plain op)]

/-- The code for an operation. There is none for a guard. -/
def lowerOp (o : Operation) : Option (List LoweredOp) :=
  match o with
  | .guard _ _ _ _ => none
  | .plain op =>
    match op.kind with
    | .ret => some []
    | .init (.struct true _ _) => (B.eventSend f op).map (B.replaceInit op)
    | _ => some [.keep o]

def lowerOps : List Operation → Option (List LoweredOp)
  | [] => some []
  | o :: ops =>
    match B.lowerOp f o, lowerOps ops with
    | some xs, some ys => some (xs ++ ys)
    | _, _ => none

def lowerBlocks : List Block → Option (List LoweredBlock)
  | [] => some []
  | blk :: blks =>
    match B.lowerOps f blk.ops, lowerBlocks blks with
    | some ops, some rest => some (⟨blk.args, ops, blk.term⟩ :: rest)
    | _, _ => none

/-- The code for a handler; `none` if the lowering fails. -/
def lower : Option LoweredFunc := (B.lowerBlocks f f.blocks).map LoweredFunc.mk

end Backend

/-- A call or an enqueue that was executed. -/
structure Message (Val : Type) where
  event : Value
  target : SendTarget
  args : List Val
  deriving DecidableEq, Repr

def SendOp.message {Val : Type} (d : SendOp) (env : Value → Val) : Message Val :=
  ⟨d.event, d.target, d.args.map env⟩

/-- The state of a handler in the generated code. -/
structure LoweredState (Val : Type) where
  state : State Val
  sent : List (Message Val)

variable {Val : Type} [Inhabited Val] [DecidableEq Val] (I : Interp Val)

def LoweredOp.step : LoweredOp → LoweredState Val → LoweredState Val
  | keep o, s => { s with state := o.step I silent s.state }
  | send d, s => { s with sent := s.sent ++ [d.message s.state.env] }
  | replace result source, s => { s with state := s.state.bind [result] [source] }

def execLowered (ops : List LoweredOp) (s : LoweredState Val) : LoweredState Val :=
  ops.foldl (fun s o => o.step I s) s

namespace LoweredFunc

variable (g : LoweredFunc)

def argsOf (b : Nat) : List Value := ((g.blocks[b]?).map fun blk => blk.args.map Prod.fst).getD []

def opsOf (b : Nat) : List LoweredOp := ((g.blocks[b]?).map LoweredBlock.ops).getD []

def termOf (b : Nat) : Terminator := ((g.blocks[b]?).map LoweredBlock.term).getD .terminate

/-- Run the generated code from a block. -/
def runFrom : Nat → Nat → LoweredState Val → Option (LoweredState Val)
  | 0, _, _ => none
  | n + 1, b, s =>
    let t := execLowered I (g.opsOf b) s
    match g.termOf b with
    | .terminate => some t
    | .br dest args => runFrom n dest { t with state := t.state.bind (g.argsOf dest) args }
    | .condBr cond trueDest trueArgs falseDest falseArgs =>
      if I.truth (t.state.env cond) then
        runFrom n trueDest { t with state := t.state.bind (g.argsOf trueDest) trueArgs }
      else runFrom n falseDest { t with state := t.state.bind (g.argsOf falseDest) falseArgs }

/-- Call a handler: the calls and enqueues that it executes, in their order. -/
def sends (n : Nat) (inputs : List Val) (cells : Cell → Val → Val) : Option (List (Message Val)) :=
  (g.runFrom I n 0 ⟨initialState (g.argsOf 0) inputs cells, []⟩).map LoweredState.sent

end LoweredFunc

end Alkali
