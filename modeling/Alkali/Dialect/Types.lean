import Mathlib.Data.BitVec

/-!
# Types of the EP2 dialect

The types of `EP2Ops.td` together with the builtin types the front end uses.
A struct carries its element types by value, so that the type of a nested
field is part of the type of the struct. `f64Tensor` is the result type that
the builder of `ep2.mul` gives its operation.
-/

namespace Alkali

/-- The types a value of the EP2 dialect can have. -/
inductive Ty
  | any
  | int (width : Nat)
  | none
  | f64Tensor
  | struct (isEvent : Bool) (elementTypes : List Ty) (name : String)
  | buffer
  | bufferPool
  | table (keyType valueType : Ty) (size : Nat)
  | atom
  | context
  | contextRef (valueType : Ty)
  | port (inward outward : Bool)
  | opaqueType (name : String)
  deriving Inhabited, Repr

namespace Ty

mutual

/-- Structural comparison of two types. -/
def beq : Ty → Ty → Bool
  | any, any => true
  | int w, int w' => w == w'
  | none, none => true
  | f64Tensor, f64Tensor => true
  | struct e ts n, struct e' ts' n' => e == e' && n == n' && beqList ts ts'
  | buffer, buffer => true
  | bufferPool, bufferPool => true
  | table k v s, table k' v' s' => s == s' && beq k k' && beq v v'
  | atom, atom => true
  | context, context => true
  | contextRef t, contextRef t' => beq t t'
  | port i o, port i' o' => i == i' && o == o'
  | opaqueType n, opaqueType n' => n == n'
  | _, _ => false

def beqList : List Ty → List Ty → Bool
  | [], [] => true
  | t :: ts, t' :: ts' => beq t t' && beqList ts ts'
  | _, _ => false

end

mutual

theorem beq_iff : ∀ a b : Ty, beq a b = true ↔ a = b
  | any, b | none, b | f64Tensor, b | buffer, b | bufferPool, b | atom, b
  | context, b => by cases b <;> simp [beq]
  | int w, b => by cases b <;> simp [beq]
  | struct e ts n, b => by
    cases b <;> simp [beq, beqList_iff ts]
    tauto
  | table k v s, b => by
    cases b <;> simp [beq, beq_iff k, beq_iff v]
    tauto
  | contextRef t, b => by cases b <;> simp [beq, beq_iff t]
  | port i o, b => by cases b <;> simp [beq]
  | opaqueType n, b => by cases b <;> simp [beq]

theorem beqList_iff : ∀ a b : List Ty, beqList a b = true ↔ a = b
  | [], b => by cases b <;> simp [beqList]
  | t :: ts, b => by cases b <;> simp [beqList, beq_iff t, beqList_iff ts]

end

instance : DecidableEq Ty := fun a b => decidable_of_iff _ (beq_iff a b)

end Ty

end Alkali
