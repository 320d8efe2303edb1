import GraphQuery.Proofs.Decimal.Numerals
import GraphQuery.Proofs.Decimal.Rounding

/-!
The shortest digits of a number. Seventeen digits always come to a multiple in the interval of the
number, so that the search for fewer ends in it as well.
-/

namespace GraphQuery.Decimal

theorem lt_pow_digitCount (n : Nat) : n < 10 ^ digitCount n :=
  (Nat.length_toDigits_le_iff (by decide) (List.length_pos_iff.mpr Nat.toDigits_ne_nil)).mp le_rfl

theorem pow_digitCount_le {n : Nat} (positive : 0 < n) : 10 ^ (digitCount n - 1) ≤ n := by
  by_contra less
  rcases Nat.eq_zero_or_pos (digitCount n - 1) with zero | more
  · rw [zero] at less
    omega
  · have short := (Nat.length_toDigits_le_iff (by decide) more).mpr (not_le.mp less)
    rw [digitCount] at short more
    omega

theorem pow_decimalExponent_le {numerator denominator : Nat} (positive : 0 < numerator)
    (positiveToo : 0 < denominator) :
    (10 : ℚ) ^ decimalExponent numerator denominator ≤ numerator / denominator := by
  have scale : (0 : ℚ) < denominator := by exact_mod_cast positiveToo
  rw [le_div_iff₀ scale]
  unfold decimalExponent
  split
  · next least =>
    have count : (1 : ℤ) ≤ digitCount (numerator / denominator) := by
      exact_mod_cast List.length_pos_iff.mpr Nat.toDigits_ne_nil
    have reached := pow_digitCount_le (Nat.div_pos least positiveToo)
    have exact : ((digitCount (numerator / denominator) : ℤ) - 1) =
        ((digitCount (numerator / denominator) - 1 : ℕ) : ℤ) := by omega
    rw [exact, zpow_natCast]
    exact_mod_cast (Nat.le_div_iff_mul_le positiveToo).mp reached
  · next less =>
    have missed := lt_pow_digitCount ((denominator - 1) / numerator)
    rw [Nat.div_lt_iff_lt_mul positive] at missed
    rw [zpow_neg, zpow_natCast, inv_mul_le_iff₀ (by positivity)]
    exact_mod_cast (by omega : denominator ≤ _)

/-! Multiples of powers of ten -/

section Grid

variable {range : Interval} {step : ℤ} {multiple : Nat}

theorem le_multiple_iff (bound multiple denominator : Nat) (step : ℤ) :
    (bound : ℚ) ≤ multiple * 10 ^ step * denominator ↔
      bound * 10 ^ (-step).toNat ≤ multiple * (denominator * 10 ^ step.toNat) := by
  have exact : (multiple * 10 ^ step * denominator : ℚ) =
      multiple * (denominator * 10 ^ step.toNat) / 10 ^ (-step).toNat := by
    rw [← pow_toNat_div]
    ring
  rw [exact, le_div_iff₀ (by positivity)]
  exact_mod_cast Iff.rfl

theorem multiple_le_iff (bound multiple denominator : Nat) (step : ℤ) :
    multiple * 10 ^ step * denominator ≤ (bound : ℚ) ↔
      multiple * (denominator * 10 ^ step.toNat) ≤ bound * 10 ^ (-step).toNat := by
  have exact : (multiple * 10 ^ step * denominator : ℚ) =
      multiple * (denominator * 10 ^ step.toNat) / 10 ^ (-step).toNat := by
    rw [← pow_toNat_div]
    ring
  rw [exact, div_le_iff₀ (by positivity)]
  exact_mod_cast Iff.rfl

/-- Whether one number is at most another or, if the ends are left out, less. -/
def Interval.ordered (range : Interval) (less more : Nat) : Bool :=
  if range.closed then decide (less ≤ more) else decide (less < more)

theorem ordered_of_lt {less more : Nat} (lt : less < more) : range.ordered less more = true := by
  rw [Interval.ordered]
  split
  · exact decide_eq_true lt.le
  · exact decide_eq_true lt

theorem le_of_not_ordered {less more : Nat} (missed : range.ordered less more = false) :
    more ≤ less := by
  rw [Interval.ordered] at missed
  split at missed
  · exact (not_le.mp (of_decide_eq_false missed)).le
  · exact not_lt.mp (of_decide_eq_false missed)

theorem holds_multiple_iff : range.Holds (multiple * 10 ^ step) ↔
    range.ordered (range.low * 10 ^ (-step).toNat)
        (multiple * (range.denominator * 10 ^ step.toNat)) = true ∧
      range.ordered (multiple * (range.denominator * 10 ^ step.toNat))
        (range.high * 10 ^ (-step).toNat) = true := by
  have lower := le_multiple_iff range.low multiple range.denominator step
  have upper := multiple_le_iff range.high multiple range.denominator step
  have lowerToo := multiple_le_iff range.low multiple range.denominator step
  have upperToo := le_multiple_iff range.high multiple range.denominator step
  rw [Interval.ordered, Interval.ordered]
  cases closed : range.closed with
  | true =>
      simp only [if_true, decide_eq_true_eq]
      exact ⟨fun holds => ⟨lower.mp holds.lower, upper.mp holds.upper⟩, fun fits =>
        ⟨lower.mpr fits.1, upper.mpr fits.2, fun opened => by simp [closed] at opened⟩⟩
  | false =>
      simp only [Bool.false_eq_true, if_false, decide_eq_true_eq]
      rw [← not_le, ← not_le, ← lowerToo, ← upperToo, not_le, not_le]
      exact ⟨fun holds => holds.inside closed, fun inside =>
        ⟨inside.1.le, inside.2.le, fun _ => inside⟩⟩

/-- Of the two multiples around the value one in the interval is taken, if there is one. -/
theorem onGrid?_cases (range : Interval) (step : ℤ) {gap finer below : Nat}
    (gapped : gap = range.denominator * 10 ^ step.toNat) (scaled : finer = 10 ^ (-step).toNat)
    (quotient : below = range.value * finer / gap) :
    range.onGrid? step = some below ∧ range.ordered (range.low * finer) (below * gap) = true ∨
      range.onGrid? step = some (below + 1) ∧
        range.ordered ((below + 1) * gap) (range.high * finer) = true ∨
      range.onGrid? step = none ∧ range.ordered (range.low * finer) (below * gap) = false ∧
        range.ordered ((below + 1) * gap) (range.high * finer) = false := by
  have exact : range.onGrid? step =
      if range.ordered (range.low * finer) (below * gap) &&
          (!range.ordered ((below + 1) * gap) (range.high * finer) || decide
            (range.value * finer - below * gap < (below + 1) * gap - range.value * finer)) then
        some below
      else if range.ordered ((below + 1) * gap) (range.high * finer) then some (below + 1)
      else none := by
    subst gapped scaled quotient
    rfl
  cases low : range.ordered (range.low * finer) (below * gap)
  all_goals cases high : range.ordered ((below + 1) * gap) (range.high * finer)
  all_goals simp [exact, low, high]
  omega

theorem holds_of_onGrid? (positive : 0 < range.denominator) (low : range.low < range.value)
    (high : range.value < range.high) (found : range.onGrid? step = some multiple) :
    range.Holds (multiple * 10 ^ step) := by
  have wide : 0 < range.denominator * 10 ^ step.toNat := by positivity
  have fine : 0 < 10 ^ (-step).toNat := by positivity
  have cases := onGrid?_cases range step rfl rfl rfl
  rw [holds_multiple_iff]
  generalize range.denominator * 10 ^ step.toNat = gap at wide cases ⊢
  generalize 10 ^ (-step).toNat = finer at fine cases ⊢
  have lower := Nat.mul_lt_mul_of_pos_right low fine
  have upper := Nat.mul_lt_mul_of_pos_right high fine
  have below := Nat.div_mul_le_self (range.value * finer) gap
  have above := Nat.lt_mul_div_succ (range.value * finer) wide
  rw [mul_comm gap] at above
  obtain ⟨same, fits⟩ | ⟨same, fits⟩ | ⟨same, _⟩ := cases
  · obtain rfl := Option.some.inj (found.symm.trans same)
    exact ⟨fits, ordered_of_lt (by omega)⟩
  · obtain rfl := Option.some.inj (found.symm.trans same)
    exact ⟨ordered_of_lt (by omega), fits⟩
  · cases found.symm.trans same

/-- An interval that is wider than a power of ten holds a multiple of it. -/
theorem isSome_onGrid? (wide : range.low + 10 ^ step * range.denominator < (range.high : ℚ)) :
    (range.onGrid? step).isSome := by
  have scaled : range.low * 10 ^ (-step).toNat + range.denominator * 10 ^ step.toNat <
      range.high * 10 ^ (-step).toNat := by
    have exact : (10 : ℚ) ^ step * 10 ^ (-step).toNat = 10 ^ step.toNat := by
      rw [← pow_toNat_div, div_mul_cancel₀ _ (by positivity)]
    have fine : (0 : ℚ) < 10 ^ (-step).toNat := by positivity
    have more := mul_lt_mul_of_pos_right wide fine
    rw [add_mul, mul_right_comm, exact, mul_comm (10 ^ step.toNat : ℚ)] at more
    exact_mod_cast more
  obtain ⟨same, _⟩ | ⟨same, _⟩ | ⟨_, missed, missedToo⟩ := onGrid?_cases range step rfl rfl rfl
  · rw [same]
    rfl
  · rw [same]
    rfl
  · have lower := le_of_not_ordered missed
    have upper := le_of_not_ordered missedToo
    rw [add_mul, one_mul] at upper
    omega

end Grid

/-! The digits that are found -/

variable {x : Binary64}

/-- Of the power of ten that is a unit of the seventeenth digit, some multiple lies in the interval
of the number. -/
theorem isSome_onGrid?_interval (proper : x.Proper) {leading : ℤ}
    (reached : (10 : ℚ) ^ leading ≤ x.magnitude) :
    ((interval x).onGrid? (leading - 16)).isSome := by
  apply isSome_onGrid?
  have scale := place_pos x
  have small : (10 : ℚ) ^ (leading - 16) * (interval x).denominator ≤
      x.significand / 10 ^ 16 * place x := by
    have scaled := mul_le_mul_of_nonneg_right reached (denominator_pos x).le
    rw [zpow_sub₀ (by norm_num), place]
    rw [Binary64.magnitude] at scaled
    norm_num at scaled ⊢
    linarith
  -- Half the places above and what is reached below make more than a unit of that digit.
  have wide : (x.significand : ℚ) / 10 ^ 16 < x.reach / 4 + 1 / 2 := by
    have digits : (x.significand : ℚ) + 1 ≤ 2 ^ 53 := by exact_mod_cast x.significand_lt
    rw [div_lt_iff₀ (by norm_num), Binary64.reach]
    split
    · next least =>
      have full : x.significand = 2 ^ 52 := by
        rw [Binary64.significand, if_neg (by omega), least.1, Nat.pow_eq, Nat.add_zero]
      rw [full]
      norm_num
    · push_cast
      linarith
  rw [low_interval proper.positive, high_interval]
  nlinarith

theorem low_lt_value (proper : x.Proper) : (interval x).low < (interval x).value := by
  have reach : (0 : ℚ) < x.reach := by
    rw [Binary64.reach]
    split <;> norm_num
  have below : ((interval x).low : ℚ) < (interval x).value := by
    rw [low_interval proper.positive, value_interval]
    nlinarith [place_pos x]
  exact_mod_cast below

theorem value_lt_high (x : Binary64) : (interval x).value < (interval x).high := by
  have above : ((interval x).value : ℚ) < (interval x).high := by
    rw [high_interval, value_interval]
    nlinarith [place_pos x]
  exact_mod_cast above

theorem value_div_denominator (x : Binary64) :
    ((interval x).value : ℚ) / (interval x).denominator = x.magnitude := by
  rw [value_interval, place, Binary64.magnitude, ← mul_assoc,
    mul_div_cancel_right₀ _ (denominator_pos x).ne']

/-- The search finds a multiple in the interval of the number. -/
theorem shortest_eq (proper : x.Proper) : ∃ (multiple : Nat) (step : ℤ),
    (interval x).Holds (multiple * 10 ^ step) ∧
      shortest x = ⟨dropTrailingZeros (Nat.toDigits 10 multiple), digitCount multiple + step⟩ := by
  have positive : 0 < (interval x).denominator := by exact_mod_cast denominator_pos x
  have low := low_lt_value proper
  have reached := pow_decimalExponent_le (Nat.zero_lt_of_lt low) positive
  rw [value_div_denominator] at reached
  have last := isSome_onGrid?_interval proper reached
  unfold shortest
  dsimp only
  generalize decimalExponent (interval x).value (interval x).denominator = leading at last ⊢
  cases found : (List.range' 1 17).findSome? fun (count : Nat) =>
    ((interval x).onGrid? (leading + 1 - count)).map fun multiple =>
      (multiple, leading + 1 - (count : ℤ)) with
  | none =>
      have missed := List.findSome?_eq_none_iff.mp found 17 (by decide)
      have same : leading + 1 - ((17 : ℕ) : ℤ) = leading - 16 := by omega
      rw [Option.map_eq_none_iff, same] at missed
      simp [missed] at last
  | some pair =>
      obtain ⟨multiple, step⟩ := pair
      obtain ⟨count, _, taken⟩ := List.exists_of_findSome?_eq_some found
      obtain ⟨_, fits, same⟩ := Option.map_eq_some_iff.mp taken
      cases same
      exact ⟨multiple, _, holds_of_onGrid? positive low (value_lt_high x) fits, rfl⟩

def Digits.value (number : Digits) : ℚ :=
  numeral number.digits * 10 ^ (number.point - number.digits.length)

structure Digits.Normal (number : Digits) : Prop where
  filled : number.digits ≠ []
  digits : ∀ c ∈ number.digits, c.isDigit = true
  lower : 10 ^ (number.point - 1) ≤ number.value
  upper : number.value < 10 ^ number.point

theorem dropTrailingZeros_append (digits : List Char) :
    ∃ count, digits = dropTrailingZeros digits ++ List.replicate count '0' := by
  refine ⟨(digits.reverse.takeWhile (· == '0')).length, ?_⟩
  have zeros : digits.reverse.takeWhile (· == '0') =
      List.replicate (digits.reverse.takeWhile (· == '0')).length '0' := by
    refine List.eq_replicate_of_mem fun c inside => ?_
    simpa using List.all_eq_true.mp List.all_takeWhile c inside
  rw [← List.reverse_replicate, ← zeros, dropTrailingZeros, ← List.reverse_append,
    List.takeWhile_append_dropWhile, List.reverse_reverse]

theorem value_dropTrailingZeros (digits : List Char) (step : ℤ) :
    (Digits.mk (dropTrailingZeros digits) (digits.length + step)).value =
      numeral digits * 10 ^ step := by
  obtain ⟨count, split⟩ := dropTrailingZeros_append digits
  generalize dropTrailingZeros digits = kept at split ⊢
  subst split
  have exponent : ((kept ++ List.replicate count '0').length : ℤ) + step - kept.length =
      count + step := by
    rw [List.length_append, List.length_replicate]
    omega
  rw [Digits.value, exponent, zpow_add₀ (by norm_num), zpow_natCast, numeral_append,
    numeral_replicate_zero, List.length_replicate]
  push_cast
  ring

/-- The shortest digits are read as the number. -/
theorem shortest_normal (proper : x.Proper) :
    (shortest x).Normal ∧ Near x ((shortest x).value / 2 ^ x.exponent) := by
  obtain ⟨multiple, step, holds, same⟩ := shortest_eq proper
  have near := near_of_holds proper.positive holds
  have positive : 0 < multiple := by
    apply Nat.pos_of_ne_zero
    rintro rfl
    simpa using near.positive proper
  have value : (shortest x).value = multiple * 10 ^ step := by
    rw [same, digitCount, value_dropTrailingZeros, numeral_toDigits]
  have scale : (0 : ℚ) < 10 ^ step := by positivity
  have base : (10 : ℚ) ≠ 0 := by norm_num
  refine ⟨⟨fun empty => ?_, ?_, ?_, ?_⟩, value ▸ near⟩
  · have zero : (shortest x).value = 0 := by simp [Digits.value, empty, numeral]
    rw [value] at zero
    have above : (0 : ℚ) < multiple * 10 ^ step := by positivity
    exact above.ne' zero
  · rw [same]
    obtain ⟨count, split⟩ := dropTrailingZeros_append (Nat.toDigits 10 multiple)
    intro c inside
    apply isDigit_toDigits multiple
    rw [split]
    exact List.mem_append_left _ inside
  · have below := pow_digitCount_le positive
    have count : 0 < digitCount multiple := List.length_pos_iff.mpr Nat.toDigits_ne_nil
    have exponent : (digitCount multiple : ℤ) + step - 1 =
        ((digitCount multiple - 1 : ℕ) : ℤ) + step := by omega
    rw [value, same, exponent, zpow_add₀ base, zpow_natCast]
    gcongr
    exact_mod_cast below
  · have above := lt_pow_digitCount multiple
    rw [value, same, zpow_add₀ base, zpow_natCast]
    gcongr
    exact_mod_cast above

end GraphQuery.Decimal
