import GraphQuery.Decimal.Notation
import GraphQuery.Proofs.Decimal.Shortest

/-!
When a number is written without an exponent, and that it is read back from what is written then.
The digits that are written lie on the same side of a power of ten as the number itself.
-/

namespace GraphQuery.Decimal

variable {number : Digits}

theorem numeral_zeros_append (count : Nat) (digits : List Char) :
    numeral ('0' :: (List.replicate count '0' ++ digits)) = numeral digits := by
  rw [← List.cons_append, ← List.replicate_succ, numeral_append, numeral_replicate_zero,
    Nat.mul_zero, Nat.zero_add]

theorem div_pow_eq_value {whole fraction : List Char} (power : Nat)
    (same : numeral (whole ++ fraction) = 10 ^ power * numeral number.digits)
    (places : number.point - number.digits.length = power - fraction.length) :
    (numeral (whole ++ fraction) : ℚ) / 10 ^ fraction.length = number.value := by
  rw [Digits.value, same, places, zpow_sub₀ (by norm_num), zpow_natCast, zpow_natCast]
  push_cast
  ring

/-- Positional text has digits before and behind its point, which stand for the same number. -/
theorem positional_eq (filled : number.digits ≠ [])
    (digits : ∀ c ∈ number.digits, c.isDigit = true) : ∃ whole fraction,
    positional number = whole ++ '.' :: fraction ∧ whole ≠ [] ∧ fraction ≠ [] ∧
      (∀ c ∈ whole, c.isDigit = true) ∧ (∀ c ∈ fraction, c.isDigit = true) ∧
      (numeral (whole ++ fraction) : ℚ) / 10 ^ fraction.length = number.value := by
  have zeros : ∀ count, ∀ c ∈ List.replicate count '0', c.isDigit = true := fun count c inside =>
    List.eq_of_mem_replicate inside ▸ rfl
  have positive := List.length_pos_iff.mpr filled
  unfold positional
  split
  · next small =>
    refine ⟨['0'], List.replicate (-number.point).toNat '0' ++ number.digits, by simp, by simp,
      by simp [filled], by simp, ?_, div_pow_eq_value 0 ?_ ?_⟩
    · exact fun c inside => (List.mem_append.mp inside).elim (zeros _ c) (digits c)
    · rw [List.singleton_append, numeral_zeros_append, Nat.pow_zero, Nat.one_mul]
    · rw [List.length_append, List.length_replicate]
      omega
  · next large =>
    dsimp only
    split
    · next long =>
      refine ⟨number.digits ++ List.replicate (number.point.toNat - number.digits.length) '0',
        ['0'], by simp, by simp [filled], by simp, ?_, by simp,
        div_pow_eq_value (number.point.toNat - number.digits.length + 1) ?_ ?_⟩
      · exact fun c inside => (List.mem_append.mp inside).elim (digits c) (zeros _ c)
      · rw [List.append_assoc, ← List.replicate_succ', numeral_append, numeral_replicate_zero,
          List.length_replicate, Nat.add_zero]
      · rw [List.length_singleton]
        omega
    · next short =>
      refine ⟨number.digits.take number.point.toNat, number.digits.drop number.point.toNat,
        by simp, ?_, ?_, fun c inside => digits c (List.mem_of_mem_take inside),
        fun c inside => digits c (List.mem_of_mem_drop inside), div_pow_eq_value 0 ?_ ?_⟩
      · rw [ne_eq, List.take_eq_nil_iff, not_or]
        exact ⟨by omega, filled⟩
      · rw [ne_eq, List.drop_eq_nil_iff]
        omega
      · rw [List.take_append_drop, Nat.pow_zero, Nat.one_mul]
      · rw [List.length_drop]
        omega

/-! The range of positional text -/

theorem Digits.Normal.lt_point_iff (normal : number.Normal) (power : ℤ) :
    power < number.point ↔ (10 : ℚ) ^ power ≤ number.value := by
  have base : (1 : ℚ) < 10 := by norm_num
  constructor
  · intro less
    exact (zpow_le_zpow_right₀ base.le (by omega)).trans normal.lower
  · intro least
    exact (zpow_lt_zpow_iff_right₀ base).mp (least.trans_lt normal.upper)

variable {x : Binary64}

/-- A bound that is rounded up to a number of full precision lies in the interval of no other
number: every other interval is all below it or all above it. -/
theorem apart_or_apart {bound : ℚ} {least : Nat} {exponent : ℤ} (normal : -1074 ≤ exponent)
    (more : 2 ^ 52 < least) (less : least < 2 ^ 53)
    (lower : (least - 1 / 2) * 2 ^ exponent < bound) (upper : bound ≤ least * 2 ^ exponent)
    (apart : x.exponent = exponent → x.significand ≠ least) :
    (x.significand + 1 / 2) * 2 ^ x.exponent < bound ∨
      bound ≤ (x.significand - 1 / 2) * 2 ^ x.exponent := by
  have scale : (0 : ℚ) < 2 ^ exponent := by positivity
  have scaleToo : (0 : ℚ) < 2 ^ x.exponent := by positivity
  have moreToo : (2 ^ 52 + 1 : ℚ) ≤ least := by exact_mod_cast more
  have lessToo : (least + 1 : ℚ) ≤ 2 ^ 53 := by exact_mod_cast less
  have digits : (x.significand + 1 : ℚ) ≤ 2 ^ 53 := by exact_mod_cast x.significand_lt
  rcases lt_trichotomy x.exponent exponent with smaller | same | larger
  · have double : 2 * (2 : ℚ) ^ x.exponent ≤ 2 ^ exponent := by
      rw [← zpow_one_add₀ two_ne_zero]
      exact zpow_le_zpow_right₀ one_le_two (by omega)
    left
    calc (x.significand + 1 / 2) * (2 : ℚ) ^ x.exponent
        ≤ (2 ^ 53 - 1 / 2) * 2 ^ x.exponent :=
          mul_le_mul_of_nonneg_right (by linarith) scaleToo.le
      _ ≤ (2 ^ 52 - 1 / 4) * 2 ^ exponent := by linarith
      _ ≤ (least - 1 / 2) * 2 ^ exponent :=
          mul_le_mul_of_nonneg_right (by linarith) scale.le
      _ < bound := lower
  · rw [same]
    rcases Nat.lt_or_gt_of_ne (apart same) with fewer | further
    · have below : (x.significand + 1 : ℚ) ≤ least := by exact_mod_cast fewer
      left
      calc (x.significand + 1 / 2) * (2 : ℚ) ^ exponent
          ≤ (least - 1 / 2) * 2 ^ exponent :=
            mul_le_mul_of_nonneg_right (by linarith) scale.le
        _ < bound := lower
    · have above : (least + 1 : ℚ) ≤ x.significand := by exact_mod_cast further
      right
      calc bound ≤ least * (2 : ℚ) ^ exponent := upper
        _ ≤ (x.significand - 1 / 2) * 2 ^ exponent :=
            mul_le_mul_of_nonneg_right (by linarith) scale.le
  · have double : 2 * (2 : ℚ) ^ exponent ≤ 2 ^ x.exponent := by
      rw [← zpow_one_add₀ two_ne_zero]
      exact zpow_le_zpow_right₀ one_le_two (by omega)
    have full : (2 ^ 52 : ℚ) ≤ x.significand := by
      have scaled : x.biasedExponent ≠ 0 := by
        intro zero
        rw [Binary64.exponent, if_pos zero] at larger
        omega
      exact_mod_cast x.le_significand scaled
    right
    calc bound ≤ least * (2 : ℚ) ^ exponent := upper
      _ ≤ (2 ^ 53 - 1) * 2 ^ exponent := mul_le_mul_of_nonneg_right (by linarith) scale.le
      _ ≤ (2 ^ 52 - 1 / 2) * 2 ^ x.exponent := by linarith
      _ ≤ (x.significand - 1 / 2) * 2 ^ x.exponent := by gcongr

/-- What is near a number lies on the same side of such a bound. -/
theorem Near.le_iff {ratio bound : ℚ} (near : Near x (ratio / 2 ^ x.exponent))
    (side : (x.significand + 1 / 2) * 2 ^ x.exponent < bound ∨
      bound ≤ (x.significand - 1 / 2) * 2 ^ x.exponent) :
    bound ≤ ratio ↔ bound ≤ x.magnitude := by
  have scale : (0 : ℚ) < 2 ^ x.exponent := by positivity
  have reach : (x.reach : ℚ) ≤ 2 := by exact_mod_cast reach_le x
  have lower : (x.significand - 1 / 2) * 2 ^ x.exponent ≤ ratio := by
    rw [← le_div_iff₀ scale]
    linarith [near.lower]
  have upper : ratio ≤ (x.significand + 1 / 2) * 2 ^ x.exponent := by
    rw [← div_le_iff₀ scale]
    exact near.upper
  rw [Binary64.magnitude]
  rcases side with below | above
  · exact iff_of_false (by linarith) (by linarith)
  · exact iff_of_true (by linarith) (by linarith)

/-- What decides on the shortest digits. -/
theorem shortest_congr {x y : Binary64} (same : interval x = interval y) :
    shortest x = shortest y := by
  simp only [shortest, same]

/-- Numbers of full precision with the same significand and exponent differ in their sign only. -/
theorem interval_congr {x y : Binary64} (significand : x.significand = y.significand)
    (exponent : x.exponent = y.exponent) (full : 2 ^ 52 ≤ y.significand) :
    interval x = interval y := by
  have scaled : ∀ z : Binary64, 2 ^ 52 ≤ z.significand → z.biasedExponent ≠ 0 := by
    intro z full zero
    have small := z.fraction_lt
    rw [Binary64.significand, if_pos zero] at full
    omega
  have scaledX := scaled x (significand ▸ full)
  have scaledY := scaled y full
  have biased : x.biasedExponent = y.biasedExponent := by
    rw [Binary64.exponent, Binary64.exponent, if_neg scaledX, if_neg scaledY] at exponent
    omega
  have fraction : x.fraction = y.fraction := by
    rw [Binary64.significand, Binary64.significand, if_neg scaledX, if_neg scaledY] at significand
    omega
  simp only [interval, significand, exponent, biased, fraction]

theorem value_one (power : ℤ) : (Digits.mk ['1'] (power + 1)).value = 10 ^ power := by
  have one : numeral ['1'] = 1 := rfl
  rw [Digits.value, one]
  simp

/-- A power of ten that the shortest digits of its nearest number stand for separates the digits of
all numbers as it separates the numbers. -/
theorem pow_le_value_iff (proper : x.Proper) (nearest : Binary64) (power : ℤ) {least : Nat}
    {exponent : ℤ} (significand : nearest.significand = least)
    (same : nearest.exponent = exponent) (digits : shortest nearest = ⟨['1'], power + 1⟩)
    (more : 2 ^ 52 < least) (lower : (least - 1 / 2 : ℚ) * 2 ^ exponent < 10 ^ power)
    (upper : (10 : ℚ) ^ power ≤ least * 2 ^ exponent) :
    (10 : ℚ) ^ power ≤ (shortest x).value ↔ (10 : ℚ) ^ power ≤ x.magnitude := by
  subst significand same
  by_cases same : x.exponent = nearest.exponent ∧ x.significand = nearest.significand
  · have congr := shortest_congr (interval_congr same.2 same.1 more.le)
    rw [congr, digits, value_one, Binary64.magnitude, same.1, same.2]
    exact iff_of_true le_rfl upper
  · exact (shortest_normal proper).2.le_iff (apart_or_apart nearest.le_exponent more
      nearest.significand_lt lower upper fun exponent significand => same ⟨exponent, significand⟩)

/-- A number is written without an exponent from `0.0001` on and below `10000000000000000`. -/
theorem positional_iff (proper : x.Proper) :
    (positionalRange.above < (shortest x).point ∧ (shortest x).point ≤ positionalRange.upTo) ↔
      1 / 10000 ≤ x.magnitude ∧ x.magnitude < 10 ^ 16 := by
  have normal := (shortest_normal proper).1
  have above : (10 : ℚ) ^ (-4 : ℤ) ≤ (shortest x).value ↔ (10 : ℚ) ^ (-4 : ℤ) ≤ x.magnitude := by
    have significand : (Binary64.mk 0x3f1a36e2eb1c432d).significand = 7378697629483821 := rfl
    have exponent : (Binary64.mk 0x3f1a36e2eb1c432d).exponent = -66 := rfl
    exact pow_le_value_iff proper _ (-4) significand exponent rfl (by norm_num) (by norm_num)
      (by norm_num)
  have upTo : (10 : ℚ) ^ (16 : ℤ) ≤ (shortest x).value ↔ (10 : ℚ) ^ (16 : ℤ) ≤ x.magnitude := by
    have significand : (Binary64.mk 0x4341c37937e08000).significand = 5000000000000000 := rfl
    have exponent : (Binary64.mk 0x4341c37937e08000).exponent = 1 := rfl
    exact pow_le_value_iff proper _ 16 significand exponent rfl (by norm_num) (by norm_num)
      (by norm_num)
  rw [positionalRange, ← not_lt (a := (16 : ℤ)), normal.lt_point_iff, normal.lt_point_iff, above,
    upTo, not_le]
  norm_num

end GraphQuery.Decimal
