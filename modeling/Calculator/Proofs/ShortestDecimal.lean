import Calculator.Proofs.JsonNumerals
import Calculator.Proofs.NearestMagnitude
import Mathlib.Data.Nat.Cast.Order.Field

/-!
The decimals that a magnitude is written with. A decimal of so many digits is within half a unit of
its last digit of the magnitude it was rounded from. Seventeen digits are always enough to be
rounded back to the magnitude, so the search for the fewest digits never ends in vain.
-/

namespace Calculator

namespace Decimal

def value (d : Decimal) : ℚ := d.coefficient * 10 ^ d.exponent

theorem denominator_pos (d : Decimal) : 0 < d.denominator := Nat.pow_pos (by decide)

theorem cast_pow_ten (n : Nat) : ((Nat.pow 10 n : Nat) : ℚ) = 10 ^ (n : Int) := by
  rw [Nat.pow_eq, Nat.cast_pow, zpow_natCast, Nat.cast_ofNat]

/-- A power of ten as a quotient of two with natural exponents. -/
theorem pow_toNat_div (e : Int) :
    ((Nat.pow 10 e.toNat : Nat) : ℚ) / (Nat.pow 10 (-e).toNat : Nat) = 10 ^ e := by
  rw [cast_pow_ten, cast_pow_ten, ← zpow_sub₀ (by norm_num)]
  congr 1
  omega

theorem numerator_div_denominator (d : Decimal) :
    (d.numerator : ℚ) / d.denominator = d.value := by
  rw [value, ← pow_toNat_div, numerator, denominator, Nat.cast_mul, mul_div_assoc]

end Decimal

theorem length_digits_le_iff {n places : Nat} (hplaces : 0 < places) :
    (digits n).length ≤ places ↔ n < 10 ^ places := by
  rw [digits, List.length_map]
  exact Nat.length_toDigits_le_iff (by decide) hplaces

/-- Digits are as many as the power of ten that they reach. -/
theorem length_digits_eq_iff {n places : Nat} (hn : 0 < n) :
    (digits n).length = places + 1 ↔ 10 ^ places ≤ n ∧ n < 10 ^ (places + 1) := by
  have hpos : 0 < (digits n).length := List.length_pos_iff.mpr (digits_ne_nil n)
  have hmost := length_digits_le_iff (n := n) (Nat.succ_pos places)
  rcases Nat.eq_zero_or_pos places with rfl | hplaces
  · rw [← hmost, pow_zero]
    omega
  · have hleast := length_digits_le_iff (n := n) hplaces
    rw [← hmost, ← Nat.not_lt, ← hleast]
    omega

/-- The digits of the whole part of a quotient show its power of ten. -/
theorem zpow_length_digits {num den : Nat} (hden : 0 < den) (hle : den ≤ num) :
    (10 : ℚ) ^ (((digits (num / den)).length : Int) - 1) ≤ num / den ∧
      (num : ℚ) / den < 10 ^ ((digits (num / den)).length : Int) := by
  obtain ⟨places, hplaces⟩ := Nat.exists_eq_add_one_of_ne_zero
    (Nat.ne_of_gt (List.length_pos_iff.mpr (digits_ne_nil (num / den))))
  obtain ⟨hlow, hhigh⟩ := (length_digits_eq_iff (Nat.div_pos hle hden)).mp hplaces
  have hbelow : ((places + 1 : Nat) : Int) - 1 = places := by omega
  rw [hplaces, hbelow, zpow_natCast, zpow_natCast]
  constructor
  · refine le_trans ?_ Nat.cast_div_le
    exact_mod_cast hlow
  · have hden' : (0 : ℚ) < den := Nat.cast_pos.mpr hden
    rw [div_lt_iff₀ hden']
    rw [Nat.div_lt_iff_lt_mul hden] at hhigh
    exact_mod_cast hhigh

namespace Binary64

/-- Decimals of equal values are rounded to the same magnitude. -/
theorem ofDecimal_congr {d d' : Decimal} (h : d.value = d'.value) : ofDecimal d = ofDecimal d' := by
  have hpos (d : Decimal) : (d.denominator : ℚ) ≠ 0 := Nat.cast_ne_zero.mpr d.denominator_pos.ne'
  apply nearest_congr d.denominator_pos d'.denominator_pos
  rw [← d.numerator_div_denominator, ← d'.numerator_div_denominator,
    div_eq_div_iff (hpos d) (hpos d')] at h
  exact_mod_cast h

def value (m : Nat) : ℚ := units m / unitsInOne

theorem unitsInOne_pos : (0 : ℚ) < unitsInOne :=
  Nat.cast_pos.mpr (by decide +kernel)

theorem units_pos {m : Nat} (hm : 0 < m) : 0 < units m := by
  rw [units]
  split
  · exact hm
  · exact Nat.mul_pos (Nat.add_pos_right _ (by decide)) (Nat.pow_pos (by decide))

theorem value_pos {m : Nat} (hm : 0 < m) : 0 < value m :=
  div_pos (Nat.cast_pos.mpr (units_pos hm)) unitsInOne_pos

theorem value_scaled (m n : Nat) :
    ((units m * Nat.pow 10 n : Nat) : ℚ) / unitsInOne = value m * 10 ^ (n : Int) := by
  rw [value, div_mul_eq_mul_div, ← Decimal.cast_pow_ten, Nat.cast_mul]

/-- The digits of a magnitude scaled up to a number above one show its power of ten. -/
theorem zpow_scaled_le {m n : Nat} (h : unitsInOne ≤ units m * Nat.pow 10 n) :
    let length : Int := (digits (units m * Nat.pow 10 n / unitsInOne)).length
    (10 : ℚ) ^ (length - 1 - n) ≤ value m ∧ value m < 10 ^ (length - n) := by
  obtain ⟨hlow, hhigh⟩ := zpow_length_digits (Nat.cast_pos.mp unitsInOne_pos) h
  have hpower : (0 : ℚ) < 10 ^ (n : Int) := zpow_pos (by norm_num) _
  rw [value_scaled, ← div_le_iff₀ hpower, ← zpow_sub₀ (by norm_num)] at hlow
  rw [value_scaled, ← lt_div_iff₀ hpower, ← zpow_sub₀ (by norm_num)] at hhigh
  exact ⟨hlow, hhigh⟩

/-- The first significant digit of a magnitude stands for the power of ten of its order. -/
theorem zpow_order_le {m : Nat} (hm : 0 < m) :
    (10 : ℚ) ^ order m ≤ value m ∧ value m < 10 ^ (order m + 1) := by
  have hpower : unitsInOne ≤ Nat.pow 10 324 := by decide +kernel
  obtain ⟨hlow, hhigh⟩ := zpow_scaled_le (hpower.trans (Nat.le_mul_of_pos_left _ (units_pos hm)))
  rw [order]
  generalize ((digits (units m * Nat.pow 10 324 / unitsInOne)).length : Int) = length at *
  have hbelow : length - 325 = length - 1 - (324 : Nat) := (sub_sub length 1 324).symm
  have habove : length - 325 + 1 = length - (324 : Nat) := by omega
  rw [habove, hbelow]
  exact ⟨hlow, hhigh⟩

/-- A magnitude in multiples of a power of ten. -/
theorem value_shifted (m : Nat) (shift : Int) :
    ((units m * Nat.pow 10 shift.toNat : Nat) : ℚ) /
      (unitsInOne * Nat.pow 10 (-shift).toNat : Nat) = value m * 10 ^ shift := by
  rw [Nat.cast_mul, Nat.cast_mul, mul_div_mul_comm, Decimal.pow_toNat_div, value]

section
variable {m : Nat}

/-- The coefficient of a magnitude rounded to a multiple of a power of ten. -/
theorem abs_coefficient_sub_le (m : Nat) (shift : Int) :
    |(roundDiv (units m * Nat.pow 10 shift.toNat) (unitsInOne * Nat.pow 10 (-shift).toNat) : ℚ) -
      value m * 10 ^ shift| ≤ 1 / 2 := by
  rw [← value_shifted]
  exact abs_roundDiv_sub_le _ (Nat.mul_pos (Nat.cast_pos.mp unitsInOne_pos)
    (Nat.pow_pos (by decide)))

/-- Rounding to a whole number does not leave the range between two powers of ten. -/
theorem pow_le_of_near {coefficient places : Nat} {x : ℚ} (hnear : |(coefficient : ℚ) - x| ≤ 1 / 2)
    (hlow : 10 ^ places ≤ x) (hhigh : x < 10 ^ (places + 1)) :
    10 ^ places ≤ coefficient ∧ coefficient ≤ 10 ^ (places + 1) := by
  obtain ⟨hbelow, habove⟩ := abs_le.mp hnear
  constructor <;> apply Nat.le_of_not_lt <;> intro hlt
  · have hlt' : (coefficient : ℚ) + 1 ≤ 10 ^ places := by exact_mod_cast hlt
    linarith
  · have hlt' : (10 : ℚ) ^ (places + 1) + 1 ≤ coefficient := by exact_mod_cast hlt
    linarith

/-- Half a unit of a coefficient is half a unit of the last digit of its decimal. -/
theorem abs_shifted_sub_le {coefficient : Nat} {x : ℚ} {shift : Int}
    (hnear : |(coefficient : ℚ) - x * 10 ^ shift| ≤ 1 / 2) :
    |(coefficient : ℚ) * 10 ^ (-shift) - x| ≤ 10 ^ (-shift) / 2 := by
  have hpower : (0 : ℚ) < 10 ^ (-shift) := zpow_pos (by norm_num) _
  calc |(coefficient : ℚ) * 10 ^ (-shift) - x|
      = |(coefficient : ℚ) - x * 10 ^ shift| * 10 ^ (-shift) := by
        rw [← abs_of_pos hpower, ← abs_mul, abs_of_pos hpower, sub_mul, mul_assoc x,
          ← zpow_add₀ (by norm_num), add_neg_cancel, zpow_zero, mul_one]
    _ ≤ 1 / 2 * 10 ^ (-shift) := mul_le_mul_of_nonneg_right hnear hpower.le
    _ = 10 ^ (-shift) / 2 := one_div_mul_eq_div 2 _

/-- A rounded magnitude is its rounded coefficient in multiples of a power of ten, also where it is
written with another coefficient and exponent because it carries to the next power of ten. -/
theorem value_round (m : Nat) {shift order : Int} {places : Nat} (hshift : shift = places - order) :
    (round m order (places + 1)).value =
      roundDiv (units m * Nat.pow 10 shift.toNat) (unitsInOne * Nat.pow 10 (-shift).toNat) *
        10 ^ (-shift) := by
  have hplaces : ((places + 1 : Nat) : Int) - 1 - order = shift := by omega
  rw [round, hplaces, Nat.add_sub_cancel]
  generalize roundDiv _ _ = coefficient
  split
  · rename_i hcarry
    change ((Nat.pow 10 places : Nat) : ℚ) * 10 ^ (1 - shift) = _
    rw [hcarry, Decimal.cast_pow_ten, Decimal.cast_pow_ten, ← zpow_add₀ (by norm_num),
      ← zpow_add₀ (by norm_num)]
    congr 1
    omega
  · rfl

/-- Rounding to some digits keeps so many digits, and is off by half a unit of the last one at
most. -/
theorem round_spec (hm : 0 < m) (places : Nat) :
    10 ^ places ≤ (round m (order m) (places + 1)).coefficient ∧
      (round m (order m) (places + 1)).coefficient < 10 ^ (places + 1) ∧
      |(round m (order m) (places + 1)).value - value m| ≤ 10 ^ (order m - places) / 2 := by
  obtain ⟨hlow, hhigh⟩ := zpow_order_le hm
  obtain ⟨shift, hshift⟩ : ∃ shift : Int, shift = places - order m := ⟨_, rfl⟩
  have hplaces : ((places + 1 : Nat) : Int) - 1 - order m = shift := by omega
  have hexponent : order m - places = -shift := by omega
  have hlow' : (order m : Int) + shift = places := by omega
  have hhigh' : order m + 1 + shift = (places + 1 : Nat) := by omega
  have hnear := abs_coefficient_sub_le m shift
  have hpower : (0 : ℚ) < 10 ^ shift := zpow_pos (by norm_num) _
  rw [← mul_le_mul_iff_left₀ hpower, ← zpow_add₀ (by norm_num), hlow', zpow_natCast] at hlow
  rw [← mul_lt_mul_iff_left₀ hpower, ← zpow_add₀ (by norm_num), hhigh', zpow_natCast] at hhigh
  obtain ⟨hleast, hmost⟩ := pow_le_of_near hnear hlow hhigh
  rw [← and_assoc, value_round m hshift, hexponent]
  refine ⟨?_, abs_shifted_sub_le hnear⟩
  rw [round, hplaces, Nat.add_sub_cancel]
  generalize roundDiv _ _ = coefficient at *
  split
  · exact ⟨Nat.le_refl _, Nat.pow_lt_pow_succ (by decide)⟩
  · rename_i hless
    exact ⟨hleast, Nat.lt_of_le_of_ne hmost hless⟩

/-- Seventeen digits are read back as the magnitude that was rounded to them. -/
theorem ofDecimal_round_seventeen (hm : 0 < m) (hfinite : m < infinity) :
    ofDecimal (round m (order m) 17) = m := by
  have hnear : |(round m (order m) 17).value - value m| ≤ 10 ^ (order m - (16 : Nat)) / 2 :=
    (round_spec hm 16).2.2
  generalize round m (order m) 17 = d at *
  have hrelative : |d.value - value m| < value m / 2 ^ 54 := by
    rw [zpow_sub₀ (by norm_num), zpow_natCast] at hnear
    have horder := (zpow_order_le hm).1
    have hpos := value_pos hm
    norm_num at hnear ⊢
    linarith
  have hunits : (units m : ℚ) = value m * unitsInOne := by
    rw [value, div_mul_cancel₀ _ unitsInOne_pos.ne']
  apply nearest_eq_of_near hfinite d.denominator_pos (q := d.value * unitsInOne)
  · rw [Nat.cast_mul, mul_div_right_comm, d.numerator_div_denominator]
  · rw [hunits, ← sub_mul, abs_mul, abs_of_pos unitsInOne_pos, mul_div_right_comm]
    exact mul_lt_mul_of_pos_right hrelative unitsInOne_pos

/-- The digits that a magnitude is written with are at least one, are read back as it, and are the
fewest that are. -/
theorem exists_precision (hm : 0 < m) (hfinite : m < infinity) :
    ∃ places, precision m (order m) = places + 1 ∧ places ≤ 16 ∧
      ofDecimal (round m (order m) (places + 1)) = m ∧
      ∀ k < places, ofDecimal (round m (order m) (k + 1)) ≠ m := by
  rw [precision]
  cases hfind : (List.range' 1 16).find? fun p => ofDecimal (round m (order m) p) == m with
  | none =>
      have hfewer := List.find?_range'_eq_none.mp hfind
      refine ⟨16, rfl, Nat.le_refl 16, ofDecimal_round_seventeen hm hfinite, fun k hk => ?_⟩
      simpa using hfewer (k + 1) (Nat.le_add_left 1 k) (by omega)
  | some p =>
      obtain ⟨hp, hmem, hfewer⟩ := List.find?_range'_eq_some.mp hfind
      have hrange := List.mem_range'_1.mp hmem
      obtain ⟨places, rfl⟩ := Nat.exists_eq_add_one_of_ne_zero (Nat.ne_of_gt hrange.1)
      refine ⟨places, rfl, by omega, beq_iff_eq.mp hp, fun k hk => ?_⟩
      simpa using hfewer (k + 1) (Nat.le_add_left 1 k) (by omega)

end

end Binary64

end Calculator
