import Mathlib.Data.BitVec

/-!
# Arithmetic on the three back ends

`AddOp`, `SubOp` and `CmpOp` are lowered to the LLVM dialect, to C for Netronome and to an
instance of the module `ALU` for the FPGA. LLVM compares signed, C and the FPGA compare
unsigned. The bitwise operations of `arith` reach the FPGA only.
-/

namespace Alkali.Arithmetic

open BitVec

/-- The comparisons of the language. -/
inductive CmpPredicate
  | eq | le | ge | lt | gt
  deriving DecidableEq, Repr

open CmpPredicate

/-- The attribute `predicate`: a character, or a token of the lexer with the sign changed. -/
def CmpPredicate.code : CmpPredicate → Int
  | eq => 40
  | le => 41
  | ge => 42
  | lt => 60
  | gt => 62

/-- `AddOp`, `SubOp` and `CmpOp`, and the bitwise operations. -/
inductive BinOp
  | add | sub | cmp (p : CmpPredicate) | and | or
  deriving DecidableEq, Repr

def BinOp.resultSize (w : Nat) : BinOp → Nat
  | cmp _ => 1
  | _ => w

/-! ## LLVM -/

inductive ICmpPredicate
  | eq | sle | sge | slt | sgt
  deriving DecidableEq, Repr

/-- The predicate that `CmpPattern` chooses; the code asserts that there is one. -/
def llvmPredicate (code : Int) : Option ICmpPredicate :=
  match code with
  | 40 => some .eq
  | 41 => some .sle
  | 42 => some .sge
  | 60 => some .slt
  | 62 => some .sgt
  | _ => none

variable {w : Nat}

/-- `llvm.icmp`. -/
def ICmpPredicate.eval (p : ICmpPredicate) (x y : BitVec w) : Bool :=
  match p with
  | eq => x == y
  | sle => x.sle y
  | sge => y.sle x
  | slt => x.slt y
  | sgt => y.slt x

variable (op : BinOp)

/-- `AddPattern`, `SubPattern` and `CmpPattern` of `LowerLLVMPass`: the bits of the result
as a number. -/
def llvm (x y : BitVec w) : Option Nat :=
  match op with
  | .add => some (x + y).toNat
  | .sub => some (x - y).toNat
  | .cmp p => (llvmPredicate p.code).map fun q => (q.eval x y).toNat
  | .and => some (x &&& y).toNat
  | .or => some (x ||| y).toNat

/-! ## Netronome -/

inductive EmitcPredicate
  | eq | le | ge | lt | gt
  deriving DecidableEq, Repr

def emitcPredicate (code : Int) : Option EmitcPredicate :=
  match code with
  | 40 => some .eq
  | 41 => some .le
  | 42 => some .ge
  | 60 => some .lt
  | 62 => some .gt
  | _ => none

/-- The comparison of two unsigned numbers. -/
def EmitcPredicate.eval (p : EmitcPredicate) (x y : Nat) : Bool :=
  match p with
  | eq => x == y
  | le => x ≤ y
  | ge => y ≤ x
  | lt => x < y
  | gt => y < x

/-- The types of C that `emitType` prints. -/
inductive CType
  | char
  | uint (w : Nat)
  /-- `uint48_t` is a struct with an array of bytes. -/
  | uint48
  deriving DecidableEq, Repr

/-- A width with an unsigned type of the same size. -/
def HasUint (w : Nat) : Prop := w = 8 ∨ w = 16 ∨ w = 32 ∨ w = 64

instance (w : Nat) : Decidable (HasUint w) :=
  inferInstanceAs (Decidable (w = 8 ∨ w = 16 ∨ w = 32 ∨ w = 64))

/-- `emitType` with signless integers as unsigned ones; it fails for the other widths. -/
def emitType (w : Nat) : Option CType :=
  if w = 1 then some .char
  else if HasUint w then some (.uint w)
  else if w = 48 then some .uint48
  else none

/-- The number of bits of a variable, if there is arithmetic on it. -/
def CType.bits : CType → Option Nat
  | char => some 8
  | uint w => some w
  | uint48 => none

/-- The number that `v = x op y` leaves in a variable of `bits` bits. -/
def cArith (bits : Nat) (op : BinOp) (x y : Nat) : Option Nat :=
  match op with
  | .add => some ((x + y) % 2 ^ bits)
  | .sub => some ((x + (2 ^ bits - y)) % 2 ^ bits)
  | .cmp p => (emitcPredicate p.code).map fun q => (q.eval x y).toNat
  | .and | .or => none

/-- The patterns of `LowerEmitcPass` with the C code that is printed. -/
def netronome (x y : BitVec w) : Option Nat := do
  let bits ← (← emitType w).bits
  cArith bits op x.toNat y.toNat

/-! ## FPGA -/

/-- The parameter `OPID` that `emitArithmetic` passes. `emitOp` ignores other operations. -/
def opId : Option Nat :=
  match op with
  | .sub => some 0
  | .add => some 1
  | .and => some 2
  | .cmp p =>
    if p.code = 60 then some 3
    else if p.code = 62 then some 4
    else if p.code = 40 then some 5
    else if p.code = 41 then some 6
    else if p.code = 42 then some 7
    else none
  | .or => none

section ALU

variable {lvalSize rvalSize : Nat} (resultSize : Nat)

/-- The data output of the module `ALU`. Sums take the width of the widest operand, or that
of the result; comparisons that of the widest operand. -/
def alu (opId : Nat) (lval : BitVec lvalSize) (rval : BitVec rvalSize) :
    Option (BitVec resultSize) :=
  let size := max (max lvalSize rvalSize) resultSize
  let bit (b : Bool) : Option (BitVec resultSize) := some ((BitVec.ofBool b).setWidth resultSize)
  match opId with
  | 0 => some ((lval.setWidth size - rval.setWidth size).setWidth resultSize)
  | 1 => some ((lval.setWidth size + rval.setWidth size).setWidth resultSize)
  | 2 => bit (lval.toNat != 0 && rval.toNat != 0)
  | 3 => bit (lval.toNat < rval.toNat)
  | 4 => bit (lval.toNat > rval.toNat)
  | 5 => bit (lval.toNat == rval.toNat)
  | 6 => bit (lval.toNat ≤ rval.toNat)
  | 7 => bit (lval.toNat ≥ rval.toNat)
  | _ => none

end ALU

/-- The result of the instance that `emitArithmetic` makes. -/
def fpga (x y : BitVec w) : Option Nat :=
  ((opId op).bind fun i => alu (op.resultSize w) i x y).map BitVec.toNat

/-! ## Agreement -/

/-- The three lowerings compute one result, and a bitwise operation the bitwise one. -/
def Agrees (x y : BitVec w) : Prop :=
  match op with
  | .and | .or => fpga op x y = llvm op x y
  | .add | .sub | .cmp _ =>
    (llvm op x y).isSome ∧ netronome op x y = llvm op x y ∧ fpga op x y = llvm op x y

instance (op : BinOp) (x y : BitVec w) : Decidable (Agrees op x y) := by
  unfold Agrees
  split <;> infer_instance

/-- Where the lowerings agree. A Boolean is a `char`, which does not wrap around; signed
and unsigned comparisons differ on operands of different signs; `&&` is not bitwise. -/
def Agreeable (x y : BitVec w) : Prop :=
  match op with
  | .add => HasUint w ∨ w = 1 ∧ x.toNat + y.toNat < 2
  | .sub => HasUint w ∨ w = 1 ∧ y.toNat ≤ x.toNat
  | .cmp .eq => HasUint w ∨ w = 1
  | .cmp _ => (HasUint w ∨ w = 1) ∧ x.msb = y.msb
  | .and => x = 0 ∨ y = 0 ∨ x &&& y = 1
  | .or => False

theorem emitType_of_hasUint (h : HasUint w) : emitType w = some (.uint w) := by
  have hone : w ≠ 1 := by rcases h with rfl | rfl | rfl | rfl <;> decide
  rw [emitType, if_neg hone, if_pos h]

theorem emitType_cases (w : Nat) :
    HasUint w ∨ w = 1 ∨ ¬ HasUint w ∧ w ≠ 1 ∧ (emitType w).bind CType.bits = none := by
  by_cases hone : w = 1
  · exact Or.inr (Or.inl hone)
  by_cases huint : HasUint w
  · exact Or.inl huint
  · refine Or.inr (Or.inr ⟨huint, hone, ?_⟩)
    rw [emitType, if_neg hone, if_neg huint]
    split_ifs <;> rfl

theorem netronome_of_hasUint (h : HasUint w) (op : BinOp) (x y : BitVec w) :
    netronome op x y = cArith w op x.toNat y.toNat := by
  rw [netronome, emitType_of_hasUint h]
  rfl

theorem netronome_one (x y : BitVec 1) : netronome op x y = cArith 8 op x.toNat y.toNat := rfl

theorem netronome_of_none (h : (emitType w).bind CType.bits = none) (op : BinOp)
    (x y : BitVec w) : netronome op x y = none := by
  rw [netronome]
  cases hty : emitType w with
  | none => rfl
  | some ty =>
    rw [hty, Option.bind_some] at h
    simp [h]

/-! ### Sums -/

variable (p : CmpPredicate) (x y : BitVec w)

theorem fpga_add : fpga .add x y = llvm .add x y := by
  have hsum : ∀ size, size = w →
      ((x.setWidth size + y.setWidth size).setWidth w).toNat = (x + y).toNat := by
    rintro _ rfl
    simp
  exact congrArg some (hsum _ (by simp [BinOp.resultSize]))

theorem fpga_sub : fpga .sub x y = llvm .sub x y := by
  have hdiff : ∀ size, size = w →
      ((x.setWidth size - y.setWidth size).setWidth w).toNat = (x - y).toNat := by
    rintro _ rfl
    simp
  exact congrArg some (hdiff _ (by simp [BinOp.resultSize]))

theorem agrees_add_iff : Agrees .add x y ↔ Agreeable .add x y := by
  rw [Agrees, fpga_add, Agreeable]
  rcases emitType_cases w with huint | rfl | ⟨huint, hone, hnone⟩
  · simp [netronome_of_hasUint huint, cArith, llvm, huint]
  · revert x y
    decide
  · simp [netronome_of_none hnone, llvm, huint, hone]

theorem agrees_sub_iff : Agrees .sub x y ↔ Agreeable .sub x y := by
  rw [Agrees, fpga_sub, Agreeable]
  rcases emitType_cases w with huint | rfl | ⟨huint, hone, hnone⟩
  · simp [netronome_of_hasUint huint, cArith, llvm, huint, toNat_sub, Nat.add_comm]
  · revert x y
    decide
  · simp [netronome_of_none hnone, llvm, huint, hone]

/-! ### Comparisons -/

/-- The unsigned comparison, which C and the FPGA make. -/
def CmpPredicate.unsigned : Bool :=
  match p with
  | eq => x == y
  | le => x.ule y
  | ge => y.ule x
  | lt => x.ult y
  | gt => y.ult x

/-- The signed comparison of LLVM. -/
def CmpPredicate.signed : Bool :=
  match p with
  | eq => x == y
  | le => x.sle y
  | ge => y.sle x
  | lt => x.slt y
  | gt => y.slt x

theorem llvm_cmp : llvm (.cmp p) x y = some (p.signed x y).toNat := by
  cases p <;> rfl

theorem cArith_cmp (bits : Nat) (p : CmpPredicate) (x y : BitVec w) :
    cArith bits (.cmp p) x.toNat y.toNat = some (p.unsigned x y).toNat := by
  cases p with
  | eq =>
    refine congrArg (fun b : Bool => some b.toNat) ?_
    rw [EmitcPredicate.eval, unsigned, Bool.eq_iff_iff]
    simp [toNat_inj]
  | le | ge | lt | gt => rfl

theorem fpga_cmp : fpga (.cmp p) x y = some (p.unsigned x y).toNat := by
  have hbit : ∀ b : Bool, ((BitVec.ofBool b).setWidth 1).toNat = b.toNat := by decide
  cases p with
  | eq =>
    refine congrArg some ((hbit _).trans (congrArg Bool.toNat ?_))
    rw [unsigned, Bool.eq_iff_iff]
    simp [toNat_inj]
  | le | ge | lt | gt => exact congrArg some (hbit _)

/-- Operands of different signs are ordered the other way. -/
theorem signed_eq_unsigned_iff : p.signed x y = p.unsigned x y ↔ p = .eq ∨ x.msb = y.msb := by
  cases p with
  | eq => simp [signed, unsigned]
  | le =>
    rw [signed, unsigned, sle_eq_ule]
    cases x.msb <;> cases y.msb <;> simp
  | ge =>
    rw [signed, unsigned, sle_eq_ule]
    cases x.msb <;> cases y.msb <;> simp
  | lt =>
    rw [signed, unsigned, slt_eq_ult]
    cases x.msb <;> cases y.msb <;> simp
  | gt =>
    rw [signed, unsigned, slt_eq_ult]
    cases x.msb <;> cases y.msb <;> simp

theorem agreeable_cmp_iff :
    Agreeable (.cmp p) x y ↔ (HasUint w ∨ w = 1) ∧ (p = .eq ∨ x.msb = y.msb) := by
  cases p <;> simp [Agreeable]

theorem toNat_inj {a b : Bool} : a.toNat = b.toNat ↔ a = b := by
  cases a <;> cases b <;> decide

theorem agrees_cmp_iff : Agrees (.cmp p) x y ↔ Agreeable (.cmp p) x y := by
  have hsame : some (p.unsigned x y).toNat = some (p.signed x y).toNat ↔
      p = .eq ∨ x.msb = y.msb := by
    rw [Option.some.injEq, toNat_inj, eq_comm, signed_eq_unsigned_iff]
  rw [Agrees, llvm_cmp, fpga_cmp, agreeable_cmp_iff]
  rcases emitType_cases w with huint | rfl | ⟨huint, hone, hnone⟩
  · rw [netronome_of_hasUint huint, cArith_cmp, hsame]
    simp [huint]
  · rw [netronome_one, cArith_cmp, hsame]
    simp
  · simp [netronome_of_none hnone, huint, hone]

/-! ### Bitwise operations -/

theorem agrees_and_iff : Agrees .and x y ↔ Agreeable .and x y := by
  have hagr : Agrees .and x y ↔
      (BitVec.ofBool (x.toNat != 0 && y.toNat != 0)).setWidth w = x &&& y := by
    exact ⟨fun h => eq_of_toNat_eq (Option.some.inj h),
      fun h => congrArg (fun r : BitVec w => some r.toNat) h⟩
  rw [hagr, Agreeable]
  by_cases hx : x = 0
  · simp [hx]
  by_cases hy : y = 0
  · simp [hy]
  have hx' : x.toNat ≠ 0 := fun h => hx (eq_of_toNat_eq (by simpa using h))
  have hy' : y.toNat ≠ 0 := fun h => hy (eq_of_toNat_eq (by simpa using h))
  have hbit : (BitVec.ofBool (x.toNat != 0 && y.toNat != 0)).setWidth w = 1 := by
    rw [bne_iff_ne.mpr hx', bne_iff_ne.mpr hy']
    exact eq_of_toNat_eq (by simp)
  rw [hbit]
  exact ⟨fun h => Or.inr (Or.inr h.symm), fun h => (h.resolve_left hx).resolve_left hy |>.symm⟩

/-- The three lowerings of a sum or a comparison agree, and the FPGA lowering of a bitwise
operation is the bitwise one, exactly on these operands. -/
theorem lowerings_agree_iff (w : Nat) (op : BinOp) (x y : BitVec w) :
    Agrees op x y ↔ Agreeable op x y := by
  cases op with
  | add => exact agrees_add_iff x y
  | sub => exact agrees_sub_iff x y
  | cmp p => exact agrees_cmp_iff p x y
  | and => exact agrees_and_iff x y
  | or => simp [Agrees, Agreeable, fpga, opId, llvm]

/-- `-1 < 0` holds for LLVM only, `2 && 3` is not `2 & 3`, there is no module for `|`, and
the sum of two Booleans is `2` in C. -/
theorem lowerings_differ : ¬ Agrees (.cmp .lt) (0xffffffff#32) (0#32) ∧ ¬ Agrees .and (2#8) (3#8) ∧
      ¬ Agrees .or (1#8) (2#8) ∧ ¬ Agrees .add (1#1) (1#1) := by
  decide

end Alkali.Arithmetic
