import Mathlib.Data.BitVec

/-!
# Integer conversions

`LiftLLVM` turns the conversions `sext` and `trunc` of LLVM into a `BitCastOp`. The
operation is folded on a constant, lowered to LLVM again, or lowered to an assignment of
wires. None of them extends the sign, and the folder reads at most 64 bits.
-/

namespace Alkali.Conversion

/-- The conversions that `LiftLLVM` translates. -/
inductive LLVMConversion
  | sext | trunc
  deriving DecidableEq, Repr

variable {w w' : Nat}

/-- What the verifier of LLVM asks of the widths. -/
def LLVMConversion.Valid (w w' : Nat) (c : LLVMConversion) : Prop :=
  (c = sext → w < w') ∧ (c = trunc → w' < w)

instance (c : LLVMConversion) : Decidable (c.Valid w w') :=
  inferInstanceAs (Decidable ((c = .sext → w < w') ∧ (c = .trunc → w' < w)))

/-- The meaning of a conversion in LLVM. -/
def LLVMConversion.eval (w' : Nat) (x : BitVec w) : LLVMConversion → BitVec w'
  | sext => x.signExtend w'
  | trunc => x.truncate w'

/-- A `BitCastOp` from one integer type to another. -/
structure BitCastOp (w w' : Nat) where
  deriving DecidableEq, Repr

/-- `SExtConversion` and `TruncConversion`. -/
def lift (w w' : Nat) : LLVMConversion → BitCastOp w w'
  | .sext => ⟨⟩
  | .trunc => ⟨⟩

/-- `APInt::getLimitedValue` with the largest number of 64 bits as limit. -/
def getLimitedValue (x : BitVec w) : Nat := if 2 ^ 64 - 1 < x.toNat then 2 ^ 64 - 1 else x.toNat

namespace BitCastOp

/-- `BitCastOp::fold` on a constant. A cast to the type of the input is its input. -/
def fold (_ : BitCastOp w w') (x : BitVec w) : BitVec w' :=
  if h : w = w' then x.cast h else .ofNat w' (getLimitedValue x)

/-- `BitCastPattern` of `LowerLLVMPass`. -/
def lowerLLVM (_ : BitCastOp w w') (x : BitVec w) : BitVec w' :=
  if w < w' then x.zeroExtend w'
  else if w' < w then x.truncate w'
  else x.setWidth w'

/-- `emitBitcast`: the assignment of a wire to one of another width. -/
def emitFPGA (_ : BitCastOp w w') (x : BitVec w) : BitVec w' := x.setWidth w'

end BitCastOp

/-- The conversion keeps its meaning when the operation is folded and in both back ends. -/
def Preserves (c : LLVMConversion) (w' : Nat) (x : BitVec w) : Prop :=
  (lift w w' c).fold x = c.eval w' x ∧ (lift w w' c).lowerLLVM x = c.eval w' x ∧
    (lift w w' c).emitFPGA x = c.eval w' x

/-- Where it does: the number is not negative for `sext`, and the bits above the 64th do not
matter for the folder. -/
def Preservable (c : LLVMConversion) (w' : Nat) (x : BitVec w) : Prop :=
  match c with
  | .sext => x.msb = false ∧ x.toNat < 2 ^ 64
  | .trunc => x.toNat < 2 ^ 64 ∨ x.toNat % 2 ^ w' = (2 ^ 64 - 1) % 2 ^ w'

theorem lowerLLVM_eq (op : BitCastOp w w') (x : BitVec w) : op.lowerLLVM x = x.setWidth w' := by
  rw [BitCastOp.lowerLLVM]
  split_ifs <;> rfl

theorem toNat_fold (h : w ≠ w') (op : BitCastOp w w') (x : BitVec w) :
    (op.fold x).toNat = (min x.toNat (2 ^ 64 - 1)) % 2 ^ w' := by
  rw [BitCastOp.fold, dif_neg h, BitVec.toNat_ofNat, getLimitedValue]
  congr 1
  split_ifs with hlarge
  · rw [Nat.min_eq_right (Nat.le_of_lt hlarge)]
  · rw [Nat.min_eq_left (Nat.le_of_not_lt hlarge)]

theorem preserves_iff {c : LLVMConversion} (x : BitVec w) : Preserves c w' x ↔
    (lift w w' c).fold x = c.eval w' x ∧ x.setWidth w' = c.eval w' x := by
  rw [Preserves, lowerLLVM_eq, BitCastOp.emitFPGA, and_self]

/-- Only a number without sign is extended by zeros. -/
theorem setWidth_eq_signExtend_iff (h : w < w') (x : BitVec w) :
    x.setWidth w' = x.signExtend w' ↔ x.msb = false := by
  constructor
  · intro heq
    by_contra hmsb
    have hmsb : x.msb = true := by simpa using hmsb
    have hbit : (x.setWidth w').getLsbD w = (x.signExtend w').getLsbD w := by rw [heq]
    rw [BitVec.getLsbD_signExtend, BitVec.getLsbD_setWidth, hmsb] at hbit
    simp [h] at hbit
  · intro hmsb
    rw [BitVec.signExtend_eq_setWidth_of_msb_false hmsb]

theorem sext_preserved_iff (h : w < w') (x : BitVec w) :
    Preserves .sext w' x ↔ Preservable .sext w' x := by
  have hbound : x.toNat < 2 ^ w' := x.isLt.trans (Nat.pow_lt_pow_right (by decide) h)
  have hmin : min x.toNat (2 ^ 64 - 1) < 2 ^ w' := (Nat.min_le_left _ _).trans_lt hbound
  rw [preserves_iff, LLVMConversion.eval, setWidth_eq_signExtend_iff h, and_comm, Preservable]
  refine and_congr_right fun hmsb => ?_
  rw [BitVec.signExtend_eq_setWidth_of_msb_false hmsb, ← BitVec.toNat_inj, toNat_fold h.ne,
    BitVec.toNat_setWidth, Nat.mod_eq_of_lt hmin, Nat.mod_eq_of_lt hbound]
  omega

theorem trunc_preserved_iff (h : w' < w) (x : BitVec w) :
    Preserves .trunc w' x ↔ Preservable .trunc w' x := by
  rw [preserves_iff, LLVMConversion.eval, BitVec.truncate_eq_setWidth, and_iff_left rfl,
    ← BitVec.toNat_inj, toNat_fold h.ne', BitVec.toNat_setWidth, Preservable]
  by_cases hsmall : x.toNat < 2 ^ 64
  · have hmin : min x.toNat (2 ^ 64 - 1) = x.toNat := by omega
    rw [hmin]
    exact ⟨fun _ => Or.inl hsmall, fun _ => rfl⟩
  · have hmin : min x.toNat (2 ^ 64 - 1) = 2 ^ 64 - 1 := by omega
    rw [hmin, or_iff_right hsmall, eq_comm]

/-- The conversions of LLVM keep their meaning exactly on these numbers. -/
theorem conversion_preserved_iff (c : LLVMConversion) (w w' : Nat) (hvalid : c.Valid w w')
    (x : BitVec w) : Preserves c w' x ↔ Preservable c w' x := by
  cases c with
  | sext => exact sext_preserved_iff (hvalid.1 rfl) x
  | trunc => exact trunc_preserved_iff (hvalid.2 rfl) x

theorem conversion_preserved_seven :
    LLVMConversion.sext.Valid 8 32 ∧ (Preserves .sext 32 (7#8) ↔ Preservable .sext 32 (7#8)) :=
  ⟨by decide, conversion_preserved_iff .sext 8 32 (by decide) (7#8)⟩

/-- The byte `-1` becomes `255`, and the folder makes `255` of the lowest byte of `2 ^ 64`. -/
theorem conversion_changed :
    ¬ Preserves .sext 32 (0xff#8) ∧ ¬ Preserves .trunc 8 (BitVec.ofNat 128 (2 ^ 64)) := by
  refine ⟨fun h => ?_, fun h => ?_⟩
  · have hwrong : (lift 8 32 .sext).emitFPGA (0xff#8) ≠ (0xff#8).signExtend 32 := by decide
    exact hwrong h.2.2
  · have hwrong : (lift 128 8 .trunc).fold (BitVec.ofNat 128 (2 ^ 64)) ≠
        (BitVec.ofNat 128 (2 ^ 64)).truncate 8 := by decide
    exact hwrong h.1

end Alkali.Conversion
