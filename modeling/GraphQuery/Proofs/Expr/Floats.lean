import GraphQuery.Proofs.Decimal.Notation
import GraphQuery.Proofs.Expr.Words

/-!
Floats as words. There is no way to write an exponent in source text, so that a float that is
displayed with one is not read as a number.
-/

namespace GraphQuery

namespace Binary64

def Positional (x : Binary64) : Prop :=
  x.isZero = true ∨ 1 / 10000 ≤ x.magnitude ∧ x.magnitude < 10 ^ 16

variable {x : Binary64}

theorem fields_of_isZero (zero : x.isZero = true) : x.biasedExponent = 0 ∧ x.fraction = 0 := by
  simpa [isZero] using zero

theorem magnitude_of_maximal (maximal : x.biasedExponent = 2047) : 10 ^ 16 ≤ x.magnitude := by
  have exponent : x.exponent = 972 := by
    rw [Binary64.exponent, maximal]
    rfl
  have full : (2 ^ 52 : ℚ) ≤ x.significand := by
    exact_mod_cast x.le_significand (by omega)
  rw [magnitude, exponent]
  have further : (2 : ℚ) ^ (2 : ℤ) ≤ 2 ^ (972 : ℤ) :=
    zpow_le_zpow_right₀ one_le_two (by decide)
  calc (10 ^ 16 : ℚ) ≤ 2 ^ 52 * 2 ^ (2 : ℤ) := by norm_num
    _ ≤ x.significand * 2 ^ (972 : ℤ) := by gcongr

theorem not_positional_of_maximal (maximal : x.biasedExponent = 2047) : ¬ x.Positional := by
  rintro (zero | ⟨_, less⟩)
  · have small := (fields_of_isZero zero).1
    omega
  · exact (magnitude_of_maximal maximal).not_gt less

theorem Proper.isZero_eq_false (proper : x.Proper) : x.isZero = false := by
  rw [Bool.eq_false_iff]
  intro zero
  obtain ⟨biased, fraction⟩ := fields_of_isZero zero
  have positive := proper.positive
  rw [significand, if_pos biased, fraction] at positive
  omega

/-- A number is infinite or none at all, zero, or neither. -/
theorem maximal_or_isZero_or_proper (x : Binary64) :
    x.biasedExponent = 2047 ∨ x.isZero = true ∨ x.Proper := by
  by_cases maximal : x.biasedExponent = 2047
  · exact .inl maximal
  · by_cases zero : x.isZero = true
    · exact .inr (.inl zero)
    · have bound := x.biasedExponent_lt
      refine .inr (.inr ⟨by omega, ?_⟩)
      rw [significand, Nat.pow_eq]
      split
      · next least =>
        simp [isZero, least] at zero
        omega
      · omega

end Binary64

namespace Token

open Decimal

variable {x : Binary64}

theorem text_of_isZero (zero : x.isZero = true) : x.text = signed x.negative ['0', '.', '0'] := by
  have biased := (Binary64.fields_of_isZero zero).1
  have finite : x.isNaN = false := by simp [Binary64.isNaN, biased]
  have finiteToo : x.isInfinite = false := by simp [Binary64.isInfinite, biased]
  simp [Binary64.text, signed, finite, finiteToo, zero]

theorem text_of_proper (proper : x.Proper) :
    x.text = signed x.negative (shortest x).text := by
  have finite := proper.finite
  have finiteToo : x.isNaN = false := by
    simp [Binary64.isNaN]
    omega
  have small : x.isInfinite = false := by
    simp [Binary64.isInfinite]
    omega
  rw [Binary64.text, if_neg (by simp [finiteToo])]
  simp [small, proper.isZero_eq_false, signed]

theorem text_of_maximal (maximal : x.biasedExponent = 2047) :
    x.text ∈ ["NaN".toList, "inf".toList, "-inf".toList] := by
  unfold Binary64.text
  cases nan : x.isNaN with
  | true => simp
  | false =>
      have infinite : x.isInfinite = true := by
        simpa [Binary64.isNaN, Binary64.isInfinite, maximal] using nan
      cases x.negative <;> simp [infinite]

theorem number?_text_of_isZero (zero : x.isZero = true) :
    number? x.text = some (.constant (.float x)) := by
  obtain ⟨biased, fraction⟩ := Binary64.fields_of_isZero zero
  have bits := x.ofMagnitude_bits
  rw [biased, fraction] at bits
  have read : Decimal.read x.negative ['0'] ['0'] = x := bits
  have number := number?_decimal x.negative (List.cons_ne_nil '0' []) (by simp)
    (List.cons_ne_nil '0' []) (by simp)
  rwa [read, List.singleton_append, ← text_of_isZero zero] at number

/-- A float that is displayed without an exponent is read back as it is. -/
theorem number?_text (positional : x.Positional) :
    number? x.text = some (.constant (.float x)) := by
  obtain maximal | zero | proper := x.maximal_or_isZero_or_proper
  · exact (Binary64.not_positional_of_maximal maximal positional).elim
  · exact number?_text_of_isZero zero
  · have within := positional.resolve_left (by simp [proper.isZero_eq_false])
    obtain ⟨normal, near⟩ := shortest_normal proper
    obtain ⟨whole, fraction, shown, filled, filledToo, digits, digitsToo, value⟩ :=
      positional_eq normal.filled normal.digits
    rw [← value] at near
    rw [text_of_proper proper, Digits.text, if_pos ((positional_iff proper).mpr within), shown,
      number?_decimal x.negative filled digits filledToo digitsToo, read_eq proper near]

/-- Text with an exponent begins with a digit, and what is behind the digit is no fraction. -/
theorem scientific_eq {number : Digits} (filled : number.digits ≠ [])
    (digits : ∀ c ∈ number.digits, c.isDigit = true) : ∃ first rest,
    scientific number = first :: rest ∧ first.isDigit = true ∧
      (∀ c, rest.head? = some c → c.isDigit = false) ∧ (∀ c ∈ rest, isNameChar c = true) ∧
      ∀ negative, numberBefore? negative [first] rest = none := by
  obtain ⟨first, others, same⟩ := List.exists_cons_of_ne_nil filled
  rw [same] at digits
  obtain ⟨digit, digits⟩ := List.forall_mem_cons.mp digits
  have exponent := (formed_integerText (number.point - 1)).2
  unfold scientific
  rw [same]
  cases others with
  | nil =>
      refine ⟨first, 'e' :: integerText (number.point - 1), rfl, digit, by simp, ?_, fun _ => rfl⟩
      exact List.forall_mem_cons.mpr ⟨by decide, exponent⟩
  | cons second others =>
      refine ⟨first, '.' :: (second :: others ++ 'e' :: integerText (number.point - 1)),
        by simp, digit, by simp, ?_, fun negative => ?_⟩
      · refine List.forall_mem_cons.mpr ⟨by decide, fun c inside => ?_⟩
        rcases List.mem_append.mp inside with before | behind
        · exact isNameChar_of_isDigit (digits c before)
        · exact (List.forall_mem_cons.mpr ⟨by decide, exponent⟩) c behind
      · rw [numberBefore?, if_neg]
        simp

/-- A float that is displayed with an exponent, or as no number, is not read as a number. -/
theorem number?_text_eq_none (exponential : ¬ x.Positional) : number? x.text = none := by
  obtain maximal | zero | proper := x.maximal_or_isZero_or_proper
  · have word := text_of_maximal maximal
    simp only [List.mem_cons, List.not_mem_nil, or_false] at word
    rcases word with shown | shown | shown <;> rw [shown] <;> rfl
  · exact (exponential (.inl zero)).elim
  · have normal := (shortest_normal proper).1
    obtain ⟨first, rest, shown, digit, stops, _, other⟩ :=
      scientific_eq normal.filled normal.digits
    have outside := (positional_iff proper).not.mpr fun within => exponential (.inr within)
    rw [text_of_proper proper, Digits.text, if_neg outside, shown]
    have read := number?_digits x.negative (List.cons_ne_nil first []) (by simpa using digit) stops
    rwa [other] at read

theorem formed_digits_text {number : Digits} (filled : number.digits ≠ [])
    (digits : ∀ c ∈ number.digits, c.isDigit = true) : (Piece.word number.text).Formed := by
  rw [Digits.text]
  split
  · obtain ⟨whole, fraction, shown, _, _, digitsWhole, digitsFraction, _⟩ :=
      positional_eq filled digits
    rw [shown]
    have named : ∀ c ∈ '.' :: fraction, isNameChar c = true :=
      List.forall_mem_cons.mpr ⟨by decide, fun c inside =>
        isNameChar_of_isDigit (digitsFraction c inside)⟩
    refine ⟨by simp, fun c inside => ?_⟩
    rcases List.mem_append.mp inside with before | behind
    · exact isNameChar_of_isDigit (digitsWhole c before)
    · exact named c behind
  · obtain ⟨first, rest, shown, digit, _, named, _⟩ := scientific_eq filled digits
    rw [shown]
    exact ⟨List.cons_ne_nil first rest,
      List.forall_mem_cons.mpr ⟨isNameChar_of_isDigit digit, named⟩⟩

/-- However a float is displayed, it is one word. -/
theorem formed_text (x : Binary64) : (Piece.word x.text).Formed := by
  obtain maximal | zero | proper := x.maximal_or_isZero_or_proper
  · have word := text_of_maximal maximal
    simp only [List.mem_cons, List.not_mem_nil, or_false] at word
    rcases word with shown | shown | shown <;> rw [shown] <;> exact formed_of_all (by decide)
  · rw [text_of_isZero zero]
    exact formed_signed x.negative (formed_of_all (by decide))
  · have normal := (shortest_normal proper).1
    rw [text_of_proper proper]
    exact formed_signed x.negative (formed_digits_text normal.filled normal.digits)

end Token

end GraphQuery
