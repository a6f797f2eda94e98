import Alkali.LiftLLVM.Acyclic

/-!
# The operand replacement of `LiftLLVMPasses`

After the analysis the pass walks the operations, replaces every operand by its
lookup in the state after the operation, and erases loads and stores that became
trivial. The intended effect is given by a memory of slots: a load denotes the
value that was stored last.
-/

namespace Alkali

/-- An operation after the walk. -/
structure Replaced where
  operands : List Value
  erased : Bool
  deriving DecidableEq, Repr

namespace SlotOp

/-- Whether the walk erases the operation, given its new operands. -/
def erased (isPointer : Value → Bool) : SlotOp → List Value → Bool
  | store _ _, [value, addr] => value == addr
  | assign _ _, [lhs, rhs] => lhs == rhs
  | load _ _, [addr] => !isPointer addr
  | _, _ => false

/-- The uses of an erased load are replaced by its new operand. -/
def replaceAllUsesWith (isPointer : Value → Bool) (uses : Value → Value) :
    SlotOp → List Value → Value → Value
  | load r _, [addr], v => if !isPointer addr ∧ uses v = r then addr else uses v
  | _, _, v => uses v

end SlotOp

/-- The walk over the operations: `uses` gives the value that stands for a
value of the program after the replacements so far. -/
def replaceOperands (fuel : Nat) (isPointer : Value → Bool) :
    List SlotOp → StackSlotValue → (Value → Value) → Outcome (List Replaced)
  | [], _, _ => .ok []
  | op :: ops, before, uses =>
    (op.visit fuel before .empty).bind fun state =>
      match (op.operands.map uses).mapM (state.lookup fuel) with
      | none => .outOfFuel
      | some args =>
        (replaceOperands fuel isPointer ops state
          (op.replaceAllUsesWith isPointer uses args)).bind fun out =>
            .ok (⟨args, op.erased isPointer args⟩ :: out)

/-- What the slots hold and what the values of the program denote. -/
structure SlotMemory where
  mem : Value → Option Value
  val : Value → Value

namespace SlotMemory

def init : SlotMemory := ⟨fun _ => none, id⟩

def step (m : SlotMemory) : SlotOp → SlotMemory
  | .store value addr => { m with mem := Function.update m.mem addr (some (m.val value)) }
  | .load r addr => { m with val := Function.update m.val r ((m.mem addr).getD r) }
  | _ => m

/-- The operands that an operation should have after the replacement. -/
def expected (m : SlotMemory) : SlotOp → List Value
  | .store value _ => [m.val value, m.val value]
  | .load _ addr => [(m.mem addr).getD addr]
  | op => op.operands.map m.val

def expectedOperands : SlotMemory → List SlotOp → List (List Value)
  | _, [] => []
  | m, op :: ops => m.expected op :: expectedOperands (m.step op) ops

end SlotMemory

/-- The walk terminates and gives the operations these operands. -/
def Replaces (isPointer : Value → Bool) (ops : List SlotOp) (s : StackSlotValue)
    (uses : Value → Value) (operands : List (List Value)) : Prop :=
  ∃ fuel out, replaceOperands fuel isPointer ops s uses = .ok out ∧
    out.map Replaced.operands = operands

/-- Slots are allocated before they are used, written before they are read, and
used by stores and loads only. -/
def SlotOp.inPlace (pre : List SlotOp) : SlotOp → Prop
  | alloca _ => True
  | store value addr => .alloca addr ∈ pre ∧ .alloca value ∉ pre
  | load _ addr => .alloca addr ∈ pre ∧ ∃ o ∈ pre, o.written.map Prod.fst = some addr
  | other operands _ => ∀ x ∈ operands, .alloca x ∉ pre
  | init _ | assign _ _ | cast _ _ => False

instance (pre : List SlotOp) : DecidablePred (SlotOp.inPlace pre)
  | .alloca _ => inferInstanceAs (Decidable True)
  | .store _ _ => inferInstanceAs (Decidable (_ ∧ _))
  | .load _ _ => inferInstanceAs (Decidable (_ ∧ _))
  | .other _ _ => inferInstanceAs (Decidable (∀ x ∈ _, _))
  | .init _ | .assign _ _ | .cast _ _ => inferInstanceAs (Decidable False)

/-- Every operation is in place after those before it. -/
def AllInPlace : List SlotOp → List SlotOp → Prop
  | _, [] => True
  | pre, op :: ops => op.inPlace pre ∧ AllInPlace (pre ++ [op]) ops

instance decidableAllInPlace : ∀ pre ops, Decidable (AllInPlace pre ops)
  | _, [] => inferInstanceAs (Decidable True)
  | pre, op :: ops =>
    have := decidableAllInPlace (pre ++ [op]) ops
    inferInstanceAs (Decidable (_ ∧ _))

/-- A straight-line program over slots that do not escape. -/
structure NonEscaping (ops : List SlotOp) : Prop where
  ssa : Ssa ops
  inPlace : AllInPlace [] ops

/-- Which values and slots are linked by earlier stores and loads, and the value
that was stored last into a slot linked to a value. -/
structure Aliases where
  linked : Value → Value → Bool
  last : Value → Option Value

namespace Aliases

def init : Aliases := ⟨fun v w => v == w, fun _ => none⟩

variable (l : Aliases)

/-- Link two values, and so everything linked to either of them. -/
def link (a b v w : Value) : Bool :=
  l.linked v w || (l.linked v b && l.linked a w) || (l.linked v a && l.linked b w)

variable (m : SlotMemory)

def step : SlotOp → Aliases
  | .store value addr =>
    { linked := l.link addr value
      last := fun v => if l.link addr value v addr then some (m.val value) else l.last v }
  | .load r addr => { linked := l.link r addr, last := Function.update l.last r (l.last addr) }
  | _ => l

/-- No slot linked to the value was overwritten with another value. -/
def current (v : Value) : Prop :=
  ∀ w ∈ l.last v, w = m.val v

/-- The operation uses current values only, and does not store a loaded value
back to a slot that it is linked to. -/
def keeps : SlotOp → Prop
  | .store value addr => l.current m value ∧ (l.linked value addr → m.val value = value)
  | .load _ addr => l.last addr = m.mem addr
  | .other operands _ => ∀ v ∈ operands, l.current m v
  | _ => True

instance (l : Aliases) (m : SlotMemory) : DecidablePred (l.keeps m)
  | .store _ _ => inferInstanceAs (Decidable ((∀ w ∈ _, _) ∧ (_ → _)))
  | .load _ _ => inferInstanceAs (Decidable (_ = _))
  | .other _ _ => inferInstanceAs (Decidable (∀ v ∈ _, ∀ w ∈ _, _))
  | .alloca _ | .init _ | .assign _ _ | .cast _ _ => inferInstanceAs (Decidable True)

def keepsAll : Aliases → SlotMemory → List SlotOp → Prop
  | _, _, [] => True
  | l, m, op :: ops => l.keeps m op ∧ keepsAll (l.step m op) (m.step op) ops

instance decidableKeepsAll : ∀ l m ops, Decidable (keepsAll l m ops)
  | _, _, [] => inferInstanceAs (Decidable True)
  | l, m, op :: ops =>
    have := decidableKeepsAll (l.step m op) (m.step op) ops
    inferInstanceAs (Decidable (_ ∧ _))

end Aliases

end Alkali
