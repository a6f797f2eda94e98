/-!
# Printed numbers

Different numbers are printed differently.
-/

namespace Decimal

theorem toString_inj {i j : Nat} : toString i = toString j ↔ i = j := by
  refine ⟨fun h => ?_, congrArg _⟩
  rw [Nat.toString_eq_ofList_toDigits, Nat.toString_eq_ofList_toDigits, String.ofList_inj] at h
  have hdigits := congrArg (Nat.ofDigitChars 10 · 0) h
  simpa only [Nat.ofDigitChars_ten_toDigits] using hdigits

end Decimal
