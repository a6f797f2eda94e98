import Alkali.Dialect.Frame

/-!
# Execution of control-flow graphs

A function runs block after block. What it executes on the way to its end is a
list of instructions: operations, the transfer of block arguments, and tests of
the conditions of branches. A run is an execution of the instructions of a walk
through the blocks whose tests succeed.
-/

namespace Alkali

/-- What is executed on a walk through a control-flow graph. -/
inductive Instr
  | op (o : Operation)
  | bind (dests srcs : List Value)
  | test (cond : Value) (want : Bool)
  deriving DecidableEq, Repr

namespace Instr

def uses : Instr → List Value
  | op o => o.uses
  | bind _ srcs => srcs
  | test cond _ => [cond]

/-- The values that are available after the instruction. -/
def defs : Instr → List Value
  | op o => o.defs
  | bind dests _ => dests
  | test _ _ => []

/-- The values that the instruction can change. -/
def binds : Instr → List Value
  | op o => o.binds
  | bind dests _ => dests
  | test _ _ => []

end Instr

namespace FuncOp

variable (f : FuncOp)

def argsOf (b : Nat) : List Value := ((f.blocks[b]?).map fun blk => blk.args.map Prod.fst).getD []

theorem argsOf_zero : f.argsOf 0 = f.args.map Prod.fst := by
  rw [argsOf, args, List.head?_eq_getElem?]
  cases f.blocks[0]? <;> rfl

def opsOf (b : Nat) : List Operation := ((f.blocks[b]?).map Block.ops).getD []

def termOf (b : Nat) : Terminator := ((f.blocks[b]?).map Block.term).getD .terminate

/-- What is executed on each edge out of a block, and where the edge leads. -/
def edges (b : Nat) : List (List Instr × Nat) :=
  match f.termOf b with
  | .terminate => []
  | .br dest args => [([.bind (f.argsOf dest) args], dest)]
  | .condBr cond trueDest trueArgs falseDest falseArgs =>
    [([.test cond true, .bind (f.argsOf trueDest) trueArgs], trueDest),
      ([.test cond false, .bind (f.argsOf falseDest) falseArgs], falseDest)]

/-- A block and what is executed on the way out of it. -/
abbrev Leg := Nat × List Instr

/-- A walk from a block to the end of the function. -/
inductive Walk : Nat → List Leg → Prop
  | stop {b} (h : f.termOf b = .terminate) : Walk b [(b, [])]
  | go {b d instrs rest} (h : (instrs, d) ∈ f.edges b) (hrest : Walk d rest) :
      Walk b ((b, instrs) :: rest)

/-- The instructions of a walk. -/
def code (w : List Leg) : List Instr :=
  w.flatMap fun leg => (f.opsOf leg.1).map .op ++ leg.2

@[simp] theorem code_nil : f.code [] = [] := rfl

@[simp] theorem code_cons (leg : Leg) (w : List Leg) :
    f.code (leg :: w) = (f.opsOf leg.1).map .op ++ leg.2 ++ f.code w := rfl

@[simp] theorem code_append (w w' : List Leg) : f.code (w ++ w') = f.code w ++ f.code w' := by
  simp [code]

end FuncOp

variable {Val : Type} [Inhabited Val] [DecidableEq Val]

/-- Transfer the operands of a branch to the arguments of a block. -/
def State.bind (dests srcs : List Value) (s : State Val) : State Val :=
  { s with env := setResults dests (srcs.map s.env) s.env }

variable (I : Interp Val) (obs : OpKind → Bool)

/-- Execute an instruction; a test can fail. -/
def Instr.step : Instr → State Val → Option (State Val)
  | op o, s => some (o.step I obs s)
  | bind dests srcs, s => some (s.bind dests srcs)
  | test cond want, s => if I.truth (s.env cond) = want then some s else none

def execInstrs : List Instr → State Val → Option (State Val)
  | [], s => some s
  | x :: xs, s => (x.step I obs s).bind (execInstrs xs)

@[simp] theorem execInstrs_nil (s : State Val) : execInstrs I obs [] s = some s := rfl

@[simp] theorem execInstrs_cons (x : Instr) (xs : List Instr) (s : State Val) :
    execInstrs I obs (x :: xs) s = (x.step I obs s).bind (execInstrs I obs xs) := rfl

@[simp] theorem execInstrs_append (xs ys : List Instr) (s : State Val) :
    execInstrs I obs (xs ++ ys) s = (execInstrs I obs xs s).bind (execInstrs I obs ys) := by
  induction xs generalizing s with
  | nil => rfl
  | cons x xs ih =>
    rw [List.cons_append, execInstrs_cons, execInstrs_cons, Option.bind_assoc]
    exact Option.bind_congr fun t _ => ih t

@[simp] theorem execInstrs_map_op (ops : List Operation) (s : State Val) :
    execInstrs I obs (ops.map .op) s = some (exec I obs ops s) := by
  induction ops generalizing s with
  | nil => rfl
  | cons o ops ih => exact ih (o.step I obs s)

/-- What a handler does: updates of tables, commits of buffers, returned events. -/
def effects : OpKind → Bool
  | .update _ | .updateAtomic _ _ | .bufferPoolCommit _ | .ret => true
  | _ => false

theorem OpKind.effects_of_isPure {k : OpKind} (h : k.isPure) : effects k = false := by
  cases k <;> first | rfl | cases h

namespace FuncOp

variable (f : FuncOp)

/-- Run a function from a block; `none` if it does not end within the given
number of blocks. -/
def runFrom : Nat → Nat → State Val → Option (State Val)
  | 0, _, _ => none
  | n + 1, b, s =>
    let t := exec I obs (f.opsOf b) s
    match f.termOf b with
    | .terminate => some t
    | .br dest args => runFrom n dest (t.bind (f.argsOf dest) args)
    | .condBr cond trueDest trueArgs falseDest falseArgs =>
      if I.truth (t.env cond) then runFrom n trueDest (t.bind (f.argsOf trueDest) trueArgs)
      else runFrom n falseDest (t.bind (f.argsOf falseDest) falseArgs)

/-- Call a handler: its effects in their order, and the state that it leaves. -/
def performs (n : Nat) (inputs : List Val) (cells : Cell → Val → Val) :
    Option (List (Effect Val) × (Cell → Val → Val)) :=
  (f.runFrom I effects n 0 (initialState (f.argsOf 0) inputs cells)).map fun s => (s.trace, s.cells)

variable {I obs f}

/-- A run ends in the block, or goes on along an edge whose test succeeds. -/
theorem runFrom_succ {n b : Nat} {s t : State Val} : f.runFrom I obs (n + 1) b s = some t ↔
      f.termOf b = .terminate ∧ exec I obs (f.opsOf b) s = t ∨ ∃ e ∈ f.edges b, ∃ u,
          execInstrs I obs e.1 (exec I obs (f.opsOf b) s) = some u ∧
          f.runFrom I obs n e.2 u = some t := by
  rw [runFrom, edges]
  cases hterm : f.termOf b with
  | terminate => simp
  | br dest args => simp [Instr.step]
  | condBr cond trueDest trueArgs falseDest falseArgs =>
    cases hcond : I.truth ((exec I obs (f.opsOf b) s).env cond) with
    | true => simp [Instr.step, hcond]
    | false => simp [Instr.step, hcond]

/-- A run is an execution of the instructions of a walk. -/
theorem runFrom_iff {b : Nat} {s t : State Val} : (∃ n, f.runFrom I obs n b s = some t) ↔
      ∃ w, f.Walk b w ∧ execInstrs I obs (f.code w) s = some t := by
  constructor
  · rintro ⟨n, h⟩
    induction n generalizing b s with
    | zero => cases h
    | succ n ih =>
      rcases runFrom_succ.mp h with ⟨hterm, rfl⟩ | ⟨⟨instrs, d⟩, hedge, u, hinstrs, hrest⟩
      · exact ⟨_, .stop hterm, by simp⟩
      · obtain ⟨w, hw, hexec⟩ := ih hrest
        exact ⟨_, .go hedge hw, by simp [hinstrs, hexec]⟩
  · rintro ⟨w, hw, hexec⟩
    induction hw generalizing s with
    | stop hterm => exact ⟨1, runFrom_succ.mpr (Or.inl ⟨hterm, by simpa using hexec⟩)⟩
    | go hedge hrest ih =>
      simp only [code_cons, execInstrs_append, execInstrs_map_op, Option.bind_some,
        Option.bind_eq_some_iff] at hexec
      obtain ⟨u, hinstrs, hexec⟩ := hexec
      obtain ⟨n, hn⟩ := ih hexec
      exact ⟨n + 1, runFrom_succ.mpr (Or.inr ⟨_, hedge, u, hinstrs, hn⟩)⟩

/-- The edges lead nowhere back. -/
def Acyclic (f : FuncOp) : Prop :=
  ∃ rank : Nat → Nat, ∀ b instrs d, (instrs, d) ∈ f.edges b → rank d < rank b

/-- An acyclic function ends within a number of blocks. -/
theorem Acyclic.exists_fuel (h : f.Acyclic) (I : Interp Val) (obs : OpKind → Bool) (b : Nat) :
    ∃ n, ∀ s, ∃ t, f.runFrom I obs n b s = some t := by
  obtain ⟨rank, hrank⟩ := h
  suffices hends : ∀ n b s, rank b < n → ∃ t, f.runFrom I obs n b s = some t from
    ⟨rank b + 1, fun s => hends (rank b + 1) b s (Nat.lt_succ_self _)⟩
  intro n
  induction n with
  | zero => exact fun b s h => absurd h (Nat.not_lt_zero _)
  | succ n ih =>
    intro b s hb
    have hgo : ∀ instrs d u, (instrs, d) ∈ f.edges b →
        execInstrs I obs instrs (exec I obs (f.opsOf b) s) = some u →
        ∃ t, f.runFrom I obs (n + 1) b s = some t := by
      intro instrs d u hedge hinstrs
      have hd := hrank b instrs d hedge
      obtain ⟨t, ht⟩ := ih d u (by omega)
      exact ⟨t, runFrom_succ.mpr (Or.inr ⟨_, hedge, u, hinstrs, ht⟩)⟩
    cases hterm : f.termOf b with
    | terminate => exact ⟨_, runFrom_succ.mpr (Or.inl ⟨hterm, rfl⟩)⟩
    | br dest args =>
      exact hgo [.bind (f.argsOf dest) args] dest _ (by simp [edges, hterm]) rfl
    | condBr cond trueDest trueArgs falseDest falseArgs =>
      cases hcond : I.truth ((exec I obs (f.opsOf b) s).env cond) with
      | true =>
        exact hgo [.test cond true, .bind (f.argsOf trueDest) trueArgs] trueDest _
          (by simp [edges, hterm]) (by simp [Instr.step, hcond]; rfl)
      | false =>
        exact hgo [.test cond false, .bind (f.argsOf falseDest) falseArgs] falseDest _
          (by simp [edges, hterm]) (by simp [Instr.step, hcond]; rfl)

theorem Acyclic.exists_run (h : f.Acyclic) (I : Interp Val) (obs : OpKind → Bool) (b : Nat)
    (s : State Val) : ∃ n t, f.runFrom I obs n b s = some t := by
  obtain ⟨n, hn⟩ := h.exists_fuel I obs b
  exact ⟨n, hn s⟩

end FuncOp

end Alkali
