import GraphQuery.Decimal.Reading
import Mathlib.Algebra.Order.Field.Power

/-!
What decimal digits stand for, taken together.
-/

namespace GraphQuery.Decimal

variable {digits others : List Char}

theorem numeral_eq_ofDigitChars (digits : List Char) :
    numeral digits = Nat.ofDigitChars 10 digits 0 :=
  rfl

theorem numeral_append (digits others : List Char) :
    numeral (digits ++ others) = 10 ^ others.length * numeral digits + numeral others := by
  rw [numeral_eq_ofDigitChars, Nat.ofDigitChars_append, Nat.ofDigitChars_eq_ofDigitChars_zero]
  rfl

theorem numeral_toDigits (n : Nat) : numeral (Nat.toDigits 10 n) = n :=
  Nat.ofDigitChars_toDigits (by decide) (by decide)

theorem numeral_replicate_zero (count : Nat) : numeral (List.replicate count '0') = 0 := by
  induction count with
  | zero => rfl
  | succ count ih =>
      rw [List.replicate_succ, ← List.singleton_append, numeral_append, ih]
      rfl

theorem isDigit_toDigits (n : Nat) : ∀ c ∈ Nat.toDigits 10 n, c.isDigit = true :=
  fun _ inside => Nat.isDigit_of_mem_toDigits (by decide) (by decide) inside

end GraphQuery.Decimal
