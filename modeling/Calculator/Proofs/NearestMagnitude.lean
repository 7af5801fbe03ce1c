import Calculator.Binary64
import Mathlib.Algebra.Order.Floor.Semifield
import Mathlib.Algebra.Order.Round
import Mathlib.Data.Rat.Floor
import Mathlib.Tactic.FieldSimp
import Mathlib.Tactic.Linarith
import Mathlib.Tactic.Ring

/-!
Rounding to the nearest magnitude. Quotients are rounded within a half, so a quotient that is closer
to a whole number than a half is rounded to it. The magnitudes that a rounding looks at are those of
one binade, or of the next one when it carries, and a quotient whose distance from the value of a
magnitude is less than its `2 ^ 54`th part is rounded to that magnitude.
-/

namespace Calculator

section
variable {num den : Nat}

/-- A quotient is its whole part and what the rest is of the denominator. -/
theorem cast_div_eq (num : Nat) (hden : 0 < den) :
    (num : ℚ) / den = (num / den : Nat) + ((num % den : Nat) : ℚ) / den := by
  have hden' : (den : ℚ) ≠ 0 := Nat.cast_ne_zero.mpr hden.ne'
  rw [eq_comm, add_div_eq_mul_add_div _ _ hden', ← Nat.cast_mul, ← Nat.cast_add, Nat.div_add_mod']

theorem abs_roundDiv_sub_le (num : Nat) (hden : 0 < den) :
    |(roundDiv num den : ℚ) - num / den| ≤ 1 / 2 := by
  have hden' : (0 : ℚ) < den := Nat.cast_pos.mpr hden
  have hrest : ((num % den : Nat) : ℚ) / den < 1 :=
    (div_lt_one hden').mpr (Nat.cast_lt.mpr (Nat.mod_lt num hden))
  have hpos : (0 : ℚ) ≤ ((num % den : Nat) : ℚ) / den := by positivity
  have hhalf (h : den ≤ 2 * (num % den)) : 1 / 2 ≤ ((num % den : Nat) : ℚ) / den := by
    rw [div_le_div_iff₀ two_pos hden', one_mul, mul_comm]
    exact_mod_cast h
  have hhalf' (h : 2 * (num % den) ≤ den) : ((num % den : Nat) : ℚ) / den ≤ 1 / 2 := by
    rw [div_le_div_iff₀ hden' two_pos, one_mul, mul_comm]
    exact_mod_cast h
  rw [cast_div_eq num hden, roundDiv]
  split
  · rw [abs_le]
    have := hhalf' (by omega)
    constructor <;> linarith
  · rw [abs_le, Nat.cast_add, Nat.cast_one]
    have := hhalf (by omega)
    constructor <;> linarith

/-- A quotient that is closer to a whole number than a half is rounded to it. -/
theorem roundDiv_eq_of_near {n : Nat} (hden : 0 < den) (h : |(num : ℚ) / den - n| < 1 / 2) :
    roundDiv num den = n := by
  have hround := abs_roundDiv_sub_le num hden
  have hlt : |((roundDiv num den : ℤ) : ℚ) - (n : ℤ)| < 1 := by
    calc |((roundDiv num den : ℤ) : ℚ) - (n : ℤ)|
        ≤ |(roundDiv num den : ℚ) - num / den| + |(num : ℚ) / den - n| := abs_sub_le _ _ _
      _ < 1 / 2 + 1 / 2 := add_lt_add_of_le_of_lt hround h
      _ = 1 := add_halves 1
  rw [← Int.cast_sub, ← Int.cast_abs, ← Int.cast_one, Int.cast_lt] at hlt
  have := Int.abs_lt_one_iff.mp hlt
  omega

theorem roundDiv_mul_left {k : Nat} (hk : 0 < k) (num den : Nat) :
    roundDiv (k * num) (k * den) = roundDiv num den := by
  have hless : 2 * (k * (num % den)) < k * den ↔ 2 * (num % den) < den := by
    rw [Nat.mul_left_comm, Nat.mul_lt_mul_left hk]
  have hequal : 2 * (k * (num % den)) = k * den ↔ 2 * (num % den) = den := by
    rw [Nat.mul_left_comm, Nat.mul_right_inj hk.ne']
  simp only [roundDiv, Nat.mul_div_mul_left _ _ hk, Nat.mul_mod_mul_left, hless, hequal]

theorem log2_div_lt {n : Nat} (hden : 0 < den) (hn : 0 < n) (h : (num : ℚ) / den < 2 ^ n) :
    (num / den).log2 < n := by
  have hless : num / den < 2 ^ n := by
    rw [div_lt_iff₀ (Nat.cast_pos.mpr hden)] at h
    rw [Nat.div_lt_iff_lt_mul hden]
    exact_mod_cast h
  by_cases hzero : num / den = 0
  · rwa [hzero]
  · exact (Nat.log2_lt hzero).mpr hless

theorem log2_div_eq {n : Nat} (hden : 0 < den) (hlow : (2 : ℚ) ^ n ≤ num / den)
    (hhigh : (num : ℚ) / den < 2 ^ (n + 1)) : (num / den).log2 = n := by
  have hlow' : 2 ^ n ≤ num / den := by
    rw [le_div_iff₀ (Nat.cast_pos.mpr hden)] at hlow
    rw [Nat.le_div_iff_mul_le hden]
    exact_mod_cast hlow
  have hpos : num / den ≠ 0 := Nat.ne_of_gt (lt_of_lt_of_le (Nat.two_pow_pos n) hlow')
  exact Nat.le_antisymm (Nat.le_of_lt_succ (log2_div_lt hden (Nat.succ_pos n) hhigh))
    ((Nat.le_log2 hpos).mpr hlow')

end

namespace Binary64

/-- A magnitude is a scale and a significand of at most fifty-three binary digits, of exactly as
many unless the scale is the least one. -/
theorem exists_scale (m : Nat) : ∃ scale significand, m = scale * binade + significand ∧
    units m = significand * 2 ^ scale ∧ significand < 2 * binade ∧
      (scale = 0 ∨ binade ≤ significand) := by
  have hbinade : 0 < binade := by decide
  have hmod := Nat.mod_lt m hbinade
  by_cases hm : m < binade
  · refine ⟨0, m, by omega, ?_, by omega, Or.inl rfl⟩
    rw [units, if_pos hm, pow_zero, mul_one]
  · have hdiv : 1 ≤ m / binade := (Nat.one_le_div_iff hbinade).mpr (Nat.le_of_not_lt hm)
    have hsplit := Nat.div_add_mod' m binade
    obtain ⟨scale, hscale⟩ := Nat.exists_eq_add_of_le' hdiv
    refine ⟨scale, m % binade + binade, ?_, ?_, by omega, Or.inr (Nat.le_add_left _ _)⟩
    · rw [hscale, Nat.add_mul] at hsplit
      omega
    · rw [units, if_neg hm, hscale, Nat.add_sub_cancel, Nat.pow_eq]

section
variable {num den : Nat} {q : ℚ}

/-- A quotient in units is rounded at the scale where it has fifty-three binary digits, and there to
the significand that is closer than a half. -/
theorem nearest_eq_min {scale significand : Nat} (hden : 0 < den)
    (hq : ((num * unitsInOne : Nat) : ℚ) / den = q) (hlow : scale = 0 ∨ 2 ^ 52 * 2 ^ scale ≤ q)
    (hhigh : q < 2 ^ 53 * 2 ^ scale) (hnear : |q - significand * 2 ^ scale| < 2 ^ scale / 2) :
    nearest num den = min infinity (scale * binade + significand) := by
  have hscale : (num * unitsInOne / den).log2 - 52 = scale := by
    rcases hlow with rfl | hlow
    · rw [pow_zero, mul_one] at hhigh
      have := log2_div_lt hden (by decide) (hq ▸ hhigh)
      omega
    · rw [← pow_add] at hlow hhigh
      rw [log2_div_eq hden (hq ▸ hlow) (by rwa [hq, Nat.add_right_comm]), Nat.add_sub_cancel_left]
  have hpower : (0 : ℚ) < 2 ^ scale := by positivity
  have hround : roundDiv (num * unitsInOne) (den * 2 ^ scale) = significand := by
    apply roundDiv_eq_of_near (Nat.mul_pos hden (Nat.two_pow_pos scale))
    have hquotient : q / 2 ^ scale - significand = (q - significand * 2 ^ scale) / 2 ^ scale := by
      rw [sub_div, mul_div_cancel_right₀ _ hpower.ne']
    rwa [Nat.cast_mul den, ← div_div, hq, Nat.cast_pow, Nat.cast_ofNat, hquotient, abs_div,
      abs_of_pos hpower, div_lt_iff₀ hpower, one_div_mul_eq_div]
  rw [nearest, hscale, Nat.pow_eq, hround]

/-- A quotient is rounded to a magnitude if its distance from the value of the magnitude is less
than the `2 ^ 54`th part of that value. It has the scale of the magnitude, or it is below a power of
two and carries to it. -/
theorem nearest_eq_of_near {m : Nat} (hm : m < infinity) (hden : 0 < den)
    (hq : ((num * unitsInOne : Nat) : ℚ) / den = q) (hnear : |q - units m| < units m / 2 ^ 54) :
    nearest num den = m := by
  obtain ⟨scale, significand, rfl, hunits, hless, hscale⟩ := exists_scale m
  have hless' : (significand : ℚ) + 1 ≤ 2 ^ 53 := by exact_mod_cast hless
  have hpower : (0 : ℚ) < 2 ^ scale := by positivity
  rw [hunits, Nat.cast_mul, Nat.cast_pow, Nat.cast_ofNat] at hnear
  obtain ⟨hlow, hhigh⟩ := abs_lt.mp hnear
  by_cases hfull : scale = 0 ∨ 2 ^ 52 * 2 ^ scale ≤ q
  · rw [nearest_eq_min hden hq hfull (by nlinarith) (hnear.trans_le (by nlinarith)),
      Nat.min_eq_right (Nat.le_of_lt hm)]
  · obtain ⟨hne, hbelow⟩ := not_or.mp hfull
    rw [not_le] at hbelow
    obtain ⟨below, rfl⟩ := Nat.exists_eq_add_one_of_ne_zero hne
    have hleast : significand = binade := by
      have hge : binade ≤ significand := hscale.resolve_left hne
      by_contra hgt
      have hgt' : (2 : ℚ) ^ 52 + 1 ≤ significand := by
        exact_mod_cast Nat.lt_of_le_of_ne hge (Ne.symm hgt)
      nlinarith
    have hbinade : (significand : ℚ) = 2 ^ 52 := by exact_mod_cast hleast
    have hdouble : (2 : ℚ) ^ (below + 1) = 2 * 2 ^ below := pow_succ' 2 below
    rw [hdouble] at hbelow
    rw [hbinade, hdouble] at hnear hlow
    have hcarry : nearest num den = min infinity (below * binade + 2 * binade) := by
      apply nearest_eq_min hden hq (Or.inr (by linarith)) (by linarith)
      have hpower : ((2 * binade : Nat) : ℚ) * 2 ^ below = 2 ^ 52 * (2 * 2 ^ below) := by
        norm_num [binade]
        ring
      rw [hpower]
      exact hnear.trans_eq (by ring)
    have hsame : below * binade + 2 * binade = (below + 1) * binade + significand := by
      rw [hleast]
      ring
    rw [hcarry, hsame, Nat.min_eq_right (Nat.le_of_lt hm)]

theorem nearest_mul_left {k : Nat} (hk : 0 < k) (num den : Nat) :
    nearest (k * num) (k * den) = nearest num den := by
  simp only [nearest, Nat.mul_assoc, Nat.mul_div_mul_left _ _ hk, roundDiv_mul_left hk]

/-- Equal quotients are rounded to the same magnitude. -/
theorem nearest_congr {num' den' : Nat} (hden : 0 < den) (hden' : 0 < den')
    (h : num * den' = num' * den) : nearest num den = nearest num' den' := by
  rw [← nearest_mul_left hden' num, ← nearest_mul_left hden num', Nat.mul_comm den' num, h,
    Nat.mul_comm num', Nat.mul_comm den']

end

end Binary64

end Calculator
