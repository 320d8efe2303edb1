import GraphQuery.Decimal.Shortest
import GraphQuery.Decimal.Reading
import Mathlib.Algebra.Order.Field.Power
import Mathlib.Data.Rat.Cast.Order
import Mathlib.Tactic.FieldSimp
import Mathlib.Tactic.Linarith
import Mathlib.Tactic.NormNum
import Mathlib.Tactic.Ring

/-!
Rounding to binary numbers. Every quotient in the interval of a positive finite number is read as
that number.
-/

namespace GraphQuery

namespace Binary64

/-- The size of a number, whatever its sign. An infinite one counts as the power of two that is the
first out of range. -/
def magnitude (x : Binary64) : ℚ :=
  x.significand * 2 ^ x.exponent

structure Proper (x : Binary64) : Prop where
  finite : x.biasedExponent < 2047
  positive : 0 < x.significand

def reach (x : Binary64) : Nat :=
  if x.fraction = 0 ∧ 1 < x.biasedExponent then 1 else 2

variable (x : Binary64)

theorem fraction_lt : x.fraction < 2 ^ 52 :=
  Nat.mod_lt _ (by decide)

theorem biasedExponent_lt : x.biasedExponent < 2 ^ 11 :=
  Nat.mod_lt _ (by decide)

theorem significand_lt : x.significand < 2 ^ 53 := by
  have small := x.fraction_lt
  rw [significand, Nat.pow_eq]
  split <;> omega

theorem le_exponent : -1074 ≤ x.exponent := by
  rw [exponent]
  split <;> omega

theorem le_significand (normal : x.biasedExponent ≠ 0) : 2 ^ 52 ≤ x.significand := by
  rw [significand, if_neg normal, Nat.pow_eq]
  omega

/-- The bits below the sign, which count the numbers of one sign from zero on. -/
theorem magnitude_bits : x.biasedExponent * 2 ^ 52 + x.fraction =
    (x.exponent + 1074).toNat * 2 ^ 52 + x.significand := by
  rw [exponent, significand, Nat.pow_eq]
  split <;> omega

theorem ofMagnitude_bits :
    ofMagnitude x.negative (x.biasedExponent * 2 ^ 52 + x.fraction) = x := by
  obtain ⟨bits⟩ := x
  rw [ofMagnitude, mk.injEq]
  apply UInt64.toNat_inj.mp
  have bound := bits.toNat_lt
  rw [UInt64.toNat_ofNat']
  simp only [negative, biasedExponent, fraction, Nat.pow_eq, decide_eq_true_eq]
  split <;> omega

end Binary64

namespace Decimal

theorem pow_toNat_div (base : ℚ) (exponent : ℤ) :
    base ^ exponent.toNat / base ^ (-exponent).toNat = base ^ exponent := by
  rcases exponent.eq_nat_or_neg with ⟨n, rfl | rfl⟩
  · simp
  · simp

theorem roundHalfEven_eq {numerator denominator nearest : Nat} (positive : 0 < denominator)
    (lower : 2 * nearest * denominator ≤ 2 * numerator + denominator)
    (upper : 2 * numerator ≤ 2 * nearest * denominator + denominator)
    (odd : nearest % 2 = 1 → 2 * nearest * denominator < 2 * numerator + denominator ∧
      2 * numerator < 2 * nearest * denominator + denominator) :
    roundHalfEven numerator denominator = nearest := by
  have whole := Nat.div_add_mod numerator denominator
  have small := Nat.mod_lt numerator positive
  unfold roundHalfEven
  generalize numerator / denominator = quotient at whole
  generalize numerator % denominator = remainder at whole small
  subst whole
  have above : nearest ≤ quotient + 1 := by nlinarith
  have below : quotient ≤ nearest := by nlinarith
  rcases Nat.lt_or_ge quotient nearest with further | same
  · obtain rfl : nearest = quotient + 1 := by omega
    have nearer : denominator ≤ 2 * remainder := by nlinarith
    have tie : (quotient + 1) % 2 = 1 → denominator < 2 * remainder := by
      intro isOdd
      nlinarith [odd isOdd]
    simp only
    split
    · omega
    · split <;> omega
  · obtain rfl : nearest = quotient := by omega
    have nearer : 2 * remainder ≤ denominator := by nlinarith
    have tie : nearest % 2 = 1 → 2 * remainder < denominator := by
      intro isOdd
      nlinarith [odd isOdd]
    simp only
    split
    · rfl
    · split <;> omega

theorem roundHalfEven_eq_of_near {numerator denominator nearest : Nat} (positive : 0 < denominator)
    {ratio : ℚ} (same : (numerator : ℚ) / denominator = ratio) (lower : nearest - 1 / 2 ≤ ratio)
    (upper : ratio ≤ nearest + 1 / 2)
    (odd : nearest % 2 = 1 → nearest - 1 / 2 < ratio ∧ ratio < nearest + 1 / 2) :
    roundHalfEven numerator denominator = nearest := by
  have positiveToo : (0 : ℚ) < denominator := by exact_mod_cast positive
  have exact : (numerator : ℚ) = ratio * denominator := by
    rw [← same, div_mul_cancel₀ _ positiveToo.ne']
  refine roundHalfEven_eq positive ?_ ?_ fun isOdd => ⟨?_, ?_⟩
  · have : (2 * nearest * denominator : ℚ) ≤ 2 * numerator + denominator := by
      rw [exact]; nlinarith
    exact_mod_cast this
  · have : (2 * numerator : ℚ) ≤ 2 * nearest * denominator + denominator := by
      rw [exact]; nlinarith
    exact_mod_cast this
  · have : (2 * nearest * denominator : ℚ) < 2 * numerator + denominator := by
      rw [exact]; nlinarith [odd isOdd]
    exact_mod_cast this
  · have : (2 * numerator : ℚ) < 2 * nearest * denominator + denominator := by
      rw [exact]; nlinarith [odd isOdd]
    exact_mod_cast this

theorem mul_pow_lt_iff {numerator denominator : Nat} (positive : 0 < denominator)
    (exponent : ℤ) : numerator * 2 ^ (-exponent).toNat < denominator * 2 ^ exponent.toNat ↔
      (numerator / denominator : ℚ) < 2 ^ exponent := by
  rw [← pow_toNat_div, div_lt_div_iff₀ (by exact_mod_cast positive) (by positivity),
    mul_comm _ (denominator : ℚ)]
  norm_cast

/-- The exponent of the greatest power of two that a quotient reaches. -/
theorem binaryExponent_bounds {numerator denominator : Nat} (positive : 0 < numerator)
    (positiveToo : 0 < denominator) :
    (2 : ℚ) ^ binaryExponent numerator denominator ≤ numerator / denominator ∧
      (numerator / denominator : ℚ) < 2 ^ (binaryExponent numerator denominator + 1) := by
  have lower : (2 : ℚ) ^ numerator.log2 ≤ numerator := by
    exact_mod_cast Nat.log2_self_le positive.ne'
  have upper : (numerator : ℚ) < 2 ^ (numerator.log2 + 1) := by
    exact_mod_cast Nat.lt_log2_self
  have lowerToo : (2 : ℚ) ^ denominator.log2 ≤ denominator := by
    exact_mod_cast Nat.log2_self_le positiveToo.ne'
  have upperToo : (denominator : ℚ) < 2 ^ (denominator.log2 + 1) := by
    exact_mod_cast Nat.lt_log2_self
  have base : (2 : ℚ) ≠ 0 := two_ne_zero
  have least : (2 : ℚ) ^ ((numerator.log2 : ℤ) - denominator.log2 - 1) ≤
      numerator / denominator := by
    rw [sub_sub, zpow_sub₀ base, zpow_natCast, ← Nat.cast_succ, zpow_natCast]
    gcongr
  have greatest : (numerator / denominator : ℚ) <
      2 ^ ((numerator.log2 : ℤ) - denominator.log2 + 1) := by
    rw [sub_add_eq_add_sub, zpow_sub₀ base, ← Nat.cast_succ, zpow_natCast, zpow_natCast]
    gcongr
  unfold binaryExponent
  simp only [Nat.pow_eq, mul_pow_lt_iff positiveToo]
  split
  · next less =>
    exact ⟨least, by rwa [sub_add_cancel]⟩
  · next reached =>
    exact ⟨not_lt.mp reached, greatest⟩

structure Interval.Holds (range : Interval) (ratio : ℚ) : Prop where
  lower : range.low ≤ ratio * range.denominator
  upper : ratio * range.denominator ≤ range.high
  inside : range.closed = false →
    range.low < ratio * range.denominator ∧ ratio * range.denominator < range.high

/-- A quotient measured in the last place of a number: it is in the interval if it is at most half a
place away, or a quarter down to the numbers with a smaller exponent. -/
structure Near (x : Binary64) (places : ℚ) : Prop where
  lower : x.significand - x.reach / 4 ≤ places
  upper : places ≤ x.significand + 1 / 2
  odd : x.significand % 2 = 1 →
    x.significand - x.reach / 4 < places ∧ places < x.significand + 1 / 2

def place (x : Binary64) : ℚ :=
  2 ^ x.exponent * (interval x).denominator

variable {x : Binary64} {ratio : ℚ}

theorem denominator_pos (x : Binary64) : (0 : ℚ) < (interval x).denominator := by
  simp [interval]

theorem place_pos (x : Binary64) : 0 < place x :=
  mul_pos (by positivity) (denominator_pos x)

theorem quarter_place (x : Binary64) :
    ((2 ^ (x.exponent - 2).toNat : ℕ) : ℚ) = place x / 4 := by
  have exact := pow_toNat_div 2 (x.exponent - 2)
  rw [div_eq_iff (by positivity), zpow_sub₀ two_ne_zero] at exact
  have shown : (interval x).denominator = 2 ^ (-(x.exponent - 2)).toNat := rfl
  rw [Nat.cast_pow, Nat.cast_ofNat, exact, place, shown]
  push_cast
  ring

theorem reach_le (x : Binary64) : x.reach ≤ 2 := by
  rw [Binary64.reach]
  split <;> omega

theorem low_interval (positive : 0 < x.significand) :
    ((interval x).low : ℚ) = (x.significand - x.reach / 4) * place x := by
  have within : x.reach ≤ 4 * x.significand := (reach_le x).trans (by omega)
  have exact : (interval x).low = (4 * x.significand - x.reach) * 2 ^ (x.exponent - 2).toNat := rfl
  rw [exact, Nat.cast_mul, quarter_place, Nat.cast_sub within]
  push_cast
  ring

theorem value_interval (x : Binary64) :
    ((interval x).value : ℚ) = x.significand * place x := by
  have exact : (interval x).value = 4 * x.significand * 2 ^ (x.exponent - 2).toNat := rfl
  rw [exact, Nat.cast_mul, quarter_place]
  push_cast
  ring

theorem high_interval (x : Binary64) :
    ((interval x).high : ℚ) = (x.significand + 1 / 2) * place x := by
  have exact : (interval x).high = (4 * x.significand + 2) * 2 ^ (x.exponent - 2).toNat := rfl
  rw [exact, Nat.cast_mul, quarter_place]
  push_cast
  ring

theorem near_of_holds (positive : 0 < x.significand) (holds : (interval x).Holds ratio) :
    Near x (ratio / 2 ^ x.exponent) := by
  have places : ratio * (interval x).denominator = ratio / 2 ^ x.exponent * place x := by
    rw [place]
    field_simp
  obtain ⟨lower, upper, inside⟩ := holds
  simp only [low_interval positive, high_interval, places, mul_le_mul_iff_left₀ (place_pos x),
    mul_lt_mul_iff_left₀ (place_pos x)] at lower upper inside
  refine ⟨lower, upper, fun odd => inside ?_⟩
  simp [interval, odd]

theorem Near.positive (proper : x.Proper) {places : ℚ} (near : Near x places) : 0 < places := by
  have least : (1 : ℚ) ≤ x.significand := by exact_mod_cast proper.positive
  have reach : (x.reach : ℚ) ≤ 2 := by exact_mod_cast reach_le x
  linarith [near.lower]

theorem exponent_lt {exponent bound : ℤ} (reached : (2 : ℚ) ^ exponent ≤ ratio)
    (missed : ratio < 2 ^ bound) : exponent < bound :=
  (zpow_lt_zpow_iff_right₀ one_lt_two).mp (reached.trans_lt missed)

/-- Near a number the exponent to round at is the number's own, but for quotients below a power of
two. -/
theorem exponent_cases {exponent : ℤ} (reached : (2 : ℚ) ^ exponent ≤ ratio)
    (missed : ratio < 2 ^ (exponent + 1)) (near : Near x (ratio / 2 ^ x.exponent)) :
    max (exponent - 52) (-1074) = x.exponent ∨
      max (exponent - 52) (-1074) = x.exponent - 1 ∧ x.fraction = 0 ∧ 1 < x.biasedExponent ∧
        ratio / 2 ^ x.exponent < 2 ^ 52 := by
  have base : (2 : ℚ) ≠ 0 := two_ne_zero
  have scale : (0 : ℚ) < 2 ^ x.exponent := by positivity
  have least := x.le_exponent
  have digits : (x.significand : ℚ) + 1 ≤ 2 ^ 53 := by exact_mod_cast x.significand_lt
  have most : exponent < 53 + x.exponent := by
    refine exponent_lt reached ?_
    rw [zpow_add₀ base, ← div_lt_iff₀ scale]
    norm_num at digits ⊢
    linarith [near.upper]
  by_cases same : max (exponent - 52) (-1074) = x.exponent
  · exact .inl same
  · have lower : exponent + 1 ≤ 52 + x.exponent := by omega
    have normal : 1 < x.biasedExponent := by
      have above : -1074 < x.exponent := by omega
      rw [Binary64.exponent] at above
      split at above <;> omega
    have short : ratio / 2 ^ x.exponent < 2 ^ 52 := by
      rw [div_lt_iff₀ scale]
      refine missed.trans_le ?_
      rw [← zpow_natCast, ← zpow_add₀ base]
      exact zpow_le_zpow_right₀ one_le_two (by exact_mod_cast lower)
    have full : x.significand = 2 ^ 52 + x.fraction := by
      rw [Binary64.significand, if_neg (by omega), Nat.pow_eq]
    have even : x.fraction = 0 := by
      by_contra odd
      have reach : x.reach = 2 := by simp [Binary64.reach, odd]
      have below := near.lower
      have further : (2 ^ 52 + 1 : ℚ) ≤ x.significand := by
        exact_mod_cast (by omega : 2 ^ 52 + 1 ≤ x.significand)
      rw [reach, Nat.cast_ofNat] at below
      linarith
    have high : 51 + x.exponent < exponent + 1 := by
      refine exponent_lt ?_ missed
      rw [zpow_add₀ base, ← le_div_iff₀ scale]
      have below := near.lower
      have reach : (x.reach : ℚ) ≤ 2 := by exact_mod_cast reach_le x
      rw [full, even] at below
      norm_num at below ⊢
      linarith
    exact .inr ⟨by omega, even, normal, short⟩

theorem roundHalfEven_scaled {numerator denominator nearest : Nat} (positive : 0 < denominator)
    (exponent : ℤ) {places : ℚ}
    (same : (numerator / denominator : ℚ) / 2 ^ exponent = places)
    (lower : nearest - 1 / 2 ≤ places) (upper : places ≤ nearest + 1 / 2)
    (odd : nearest % 2 = 1 → nearest - 1 / 2 < places ∧ places < nearest + 1 / 2) :
    roundHalfEven (numerator * 2 ^ (-exponent).toNat) (denominator * 2 ^ exponent.toNat) =
      nearest := by
  refine roundHalfEven_eq_of_near (by positivity) ?_ lower upper odd
  rw [← same, ← pow_toNat_div]
  push_cast
  rw [div_div_div_eq]

/-- A quotient near a number is read with the bits of that number. -/
theorem nearestMagnitude_eq {numerator denominator : Nat} (proper : x.Proper)
    (positive : 0 < numerator) (positiveToo : 0 < denominator)
    (near : Near x (numerator / denominator / 2 ^ x.exponent)) :
    nearestMagnitude numerator denominator = x.biasedExponent * 2 ^ 52 + x.fraction := by
  obtain ⟨reached, missed⟩ := binaryExponent_bounds positive positiveToo
  have bits := x.magnitude_bits
  have small := x.fraction_lt
  have finite := proper.finite
  have least := x.le_exponent
  simp only [nearestMagnitude, if_neg positive.ne', Nat.pow_eq]
  have reach : (x.reach : ℚ) ≤ 2 := by exact_mod_cast reach_le x
  obtain same | ⟨same, even, normal, short⟩ := exponent_cases reached missed near
  · have rounded : roundHalfEven (numerator * 2 ^ (-x.exponent).toNat)
        (denominator * 2 ^ x.exponent.toNat) = x.significand := by
      refine roundHalfEven_scaled positiveToo x.exponent rfl ?_ near.upper fun odd => ?_
      · linarith [near.lower]
      · exact (near.odd odd).imp_left fun below => by linarith
    rw [same, rounded]
    omega
  · have full : x.significand = 2 ^ 52 := by
      rw [Binary64.significand, if_neg (by omega), even, Nat.pow_eq, Nat.add_zero]
    -- One place is now half of what it was, so there are twice as many of them.
    have doubled : (numerator / denominator : ℚ) / 2 ^ (x.exponent - 1) =
        2 * (numerator / denominator / 2 ^ x.exponent) := by
      rw [zpow_sub_one₀ two_ne_zero]
      field_simp
    have rounded : roundHalfEven (numerator * 2 ^ (-(x.exponent - 1)).toNat)
        (denominator * 2 ^ (x.exponent - 1).toNat) = 2 ^ 53 := by
      have one : x.reach = 1 := by simp [Binary64.reach, even, normal]
      have below := near.lower
      rw [full, one] at below
      push_cast at below
      refine roundHalfEven_scaled positiveToo _ doubled ?_ ?_ (fun odd => absurd odd (by decide))
      · push_cast
        linarith
      · push_cast
        linarith
    rw [same, rounded]
    omega

theorem read_eq {whole fraction : List Char} (proper : x.Proper)
    (near : Near x (numeral (whole ++ fraction) / 10 ^ fraction.length / 2 ^ x.exponent)) :
    read x.negative whole fraction = x := by
  have positive : 0 < numeral (whole ++ fraction) := by
    apply Nat.pos_of_ne_zero
    intro zero
    have places := near.positive proper
    rw [zero, Nat.cast_zero, zero_div, zero_div] at places
    exact places.false
  have powered : 0 < 10 ^ fraction.length := by positivity
  have bits := nearestMagnitude_eq proper positive powered (by exact_mod_cast near)
  rw [read, Nat.pow_eq, bits, x.ofMagnitude_bits]

end Decimal

end GraphQuery
