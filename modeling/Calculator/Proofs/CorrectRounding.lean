import Calculator.Proofs.ShortestDecimal

/-!
Correct rounding. A quotient is rounded to the multiple of a step that is nearest to it, a tie going
to the even multiple. Magnitudes are such multiples within a binade, so the rounding of quotients
finds the magnitude that is nearest (`isNearest_nearest`), and there is only one
(`IsNearest.unique`). The infinity counts for the power of two where the next magnitude would be.
-/

namespace Calculator

/-- The multiple of a step that a number is rounded to: none is nearer, and it is an even one if
another is equally near. -/
structure IsNearestMultiple (step x : ℚ) (n : Nat) : Prop where
  near (k : Nat) : |n * step - x| ≤ |k * step - x|
  even {k : Nat} (hk : k ≠ n) (h : |k * step - x| = |n * step - x|) : Even n

section
variable {num den k : Nat}

/-- Whole numbers other than the one that a quotient is rounded to are half a unit away. -/
theorem half_le_abs_sub (hden : 0 < den) (hk : k ≠ roundDiv num den) :
    1 / 2 ≤ |(k : ℚ) - num / den| := by
  have hround := abs_roundDiv_sub_le num hden
  have hone : (1 : ℚ) ≤ |((k : ℤ) : ℚ) - (roundDiv num den : ℤ)| := by
    rw [← Int.cast_sub, ← Int.cast_abs, ← Int.cast_one, Int.cast_le]
    exact Int.one_le_abs (by omega)
  have htriangle : |((k : ℤ) : ℚ) - (roundDiv num den : ℤ)| ≤
      |(k : ℚ) - num / den| + |(num : ℚ) / den - roundDiv num den| := abs_sub_le _ _ _
  rw [abs_sub_comm ((num : ℚ) / den)] at htriangle
  linarith

/-- A quotient between two whole numbers, half a unit from both, is rounded to the even one. -/
theorem even_roundDiv (hden : 0 < den) (h : |(roundDiv num den : ℚ) - num / den| = 1 / 2) :
    Even (roundDiv num den) := by
  have hden' : (0 : ℚ) < den := Nat.cast_pos.mpr hden
  have htwice : 2 * (num % den) = den := by
    have hrest : ((num % den : Nat) : ℚ) / den = 1 / 2 := by
      have hpos : (0 : ℚ) ≤ ((num % den : Nat) : ℚ) / den := by positivity
      have hless : ((num % den : Nat) : ℚ) / den < 1 :=
        (div_lt_one hden').mpr (Nat.cast_lt.mpr (Nat.mod_lt num hden))
      rw [cast_div_eq num hden, roundDiv] at h
      split at h
      · rwa [sub_add_cancel_left, abs_neg, abs_of_nonneg hpos] at h
      · rw [Nat.cast_add, Nat.cast_one, add_sub_add_left_eq_sub,
          abs_of_pos (sub_pos.mpr hless)] at h
        linarith
    rw [div_eq_div_iff hden'.ne' two_ne_zero, one_mul, mul_comm] at hrest
    exact_mod_cast hrest
  rw [roundDiv, Nat.even_iff]
  split <;> omega

theorem roundDiv_le {bound : Nat} (h : num < bound * den) : roundDiv num den ≤ bound := by
  have hfloor := Nat.div_lt_of_lt_mul (Nat.mul_comm bound den ▸ h)
  rw [roundDiv]
  split <;> omega

theorem le_roundDiv {bound : Nat} (hden : 0 < den) (h : bound * den ≤ num) :
    bound ≤ roundDiv num den := by
  have hfloor := (Nat.le_div_iff_mul_le hden).mpr h
  rw [roundDiv]
  split <;> omega

theorem isNearestMultiple_roundDiv {step x : ℚ} (hden : 0 < den) (hstep : 0 < step)
    (hx : (num : ℚ) / den * step = x) : IsNearestMultiple step x (roundDiv num den) := by
  have hscaled (k : Nat) : |k * step - x| = |(k : ℚ) - num / den| * step := by
    rw [← hx, ← sub_mul, abs_mul, abs_of_pos hstep]
  have hround := abs_roundDiv_sub_le num hden
  constructor
  · intro k
    rw [hscaled, hscaled]
    refine mul_le_mul_of_nonneg_right ?_ hstep.le
    by_cases hk : k = roundDiv num den
    · rw [hk]
    · exact hround.trans (half_le_abs_sub hden hk)
  · intro k hk h
    rw [hscaled, hscaled] at h
    have hsame := mul_right_cancel₀ hstep.ne' h
    exact even_roundDiv hden (le_antisymm hround (hsame ▸ half_le_abs_sub hden hk))

end

namespace Binary64

section
variable {m n scale significand : Nat}

/-- The value of a magnitude by its scale and its significand, also where the significand reaches
into the next scale. -/
theorem units_scaled (hless : significand ≤ 2 * binade)
    (hfull : scale = 0 ∨ binade ≤ significand) :
    units (scale * binade + significand) = significand * 2 ^ scale := by
  have hbinade : 0 < binade := by decide
  rw [units, Nat.pow_eq]
  by_cases hsmall : significand < binade
  · obtain rfl := hfull.resolve_right (Nat.not_le.mpr hsmall)
    rw [Nat.zero_mul, Nat.zero_add, if_pos hsmall, pow_zero, Nat.mul_one]
  by_cases hcarry : significand = 2 * binade
  · have hmagnitude : scale * binade + significand = (scale + 2) * binade := by
      rw [hcarry, Nat.add_mul]
    rw [hmagnitude, if_neg (by rw [Nat.add_mul]; omega), Nat.mul_mod_left,
      Nat.mul_div_cancel _ hbinade, hcarry, Nat.zero_add, Nat.add_sub_assoc (by decide), pow_succ]
    ring
  · have hmagnitude : scale * binade + significand =
        significand - binade + binade * (scale + 1) := by
      rw [Nat.mul_add, Nat.mul_comm binade]
      omega
    rw [hmagnitude, if_neg (by rw [Nat.mul_add]; omega), Nat.add_mul_mod_self_left,
      Nat.mod_eq_of_lt (by omega), Nat.add_mul_div_left _ _ hbinade,
      Nat.div_eq_of_lt (by omega), Nat.zero_add, Nat.add_sub_cancel,
      Nat.sub_add_cancel (Nat.le_of_not_lt hsmall)]

/-- Larger magnitudes stand for more units. -/
theorem units_strictMono : StrictMono units := by
  refine strictMono_nat_of_lt_succ fun m => ?_
  obtain ⟨scale, significand, rfl, hunits, hless, hfull⟩ := exists_scale m
  rw [hunits, Nat.add_assoc, units_scaled (by omega) (hfull.imp_right (Nat.le_succ_of_le))]
  exact Nat.mul_lt_mul_of_pos_right (Nat.lt_succ_self _) (Nat.two_pow_pos scale)

/-- From a binade on all magnitudes are multiples of what its neighbours are apart. -/
theorem exists_multiple (h : scale = 0 ∨ (scale + 1) * binade ≤ m) :
    ∃ k, units m = k * 2 ^ scale := by
  obtain ⟨scale', significand, rfl, hunits, hless, -⟩ := exists_scale m
  have hscale : scale ≤ scale' := by
    rcases h with rfl | h
    · exact Nat.zero_le _
    · have hlt : (scale + 1) * binade < (scale' + 2) * binade := by
        rw [Nat.add_mul scale']
        omega
      have := Nat.lt_of_mul_lt_mul_right hlt
      omega
  refine ⟨significand * 2 ^ (scale' - scale), ?_⟩
  rw [hunits, mul_assoc, ← pow_add, Nat.sub_add_cancel hscale]

end

/-! ### The nearest magnitude -/

/-- The magnitude that a number is rounded to: none is nearer, and it is an even one if another is
equally near. -/
structure IsNearest (q : ℚ) (m : Nat) : Prop where
  le : m ≤ infinity
  near {n : Nat} (hn : n ≤ infinity) : |value m - q| ≤ |value n - q|
  even {n : Nat} (hn : n ≤ infinity) (hne : n ≠ m) (h : |value n - q| = |value m - q|) : Even m

section
variable {q x : ℚ} {m m' scale significand : Nat}

theorem value_strictMono : StrictMono value := fun _ _ h =>
  div_lt_div_of_pos_right (Nat.cast_lt.mpr (units_strictMono h)) unitsInOne_pos

/-- Distances in units. -/
theorem abs_value_sub (hx : q * unitsInOne = x) (n : Nat) :
    |value n - q| = |units n - x| / unitsInOne := by
  rw [← hx, value, ← mul_div_cancel_right₀ q unitsInOne_pos.ne', mul_div_assoc, ← mul_div_assoc,
    ← sub_div, abs_div, abs_of_pos unitsInOne_pos, mul_div_cancel_right₀ _ unitsInOne_pos.ne']

/-- No two magnitudes are nearest to a number: between two even ones lies another, which is nearer
than both if they are equally near. -/
theorem IsNearest.unique (h : IsNearest q m) (h' : IsNearest q m') : m = m' := by
  wlog hlt : m < m' generalizing m m'
  · rcases Nat.lt_trichotomy m m' with hm | hm | hm
    · exact absurd hm hlt
    · exact hm
    · exact (this h' h hm).symm
  have hsame : |value m - q| = |value m' - q| := le_antisymm (h.near h'.le) (h'.near h.le)
  obtain ⟨i, hi⟩ := h.even h'.le hlt.ne' hsame.symm
  obtain ⟨j, hj⟩ := h'.even h.le hlt.ne hsame
  have hbelow := value_strictMono (Nat.lt_add_one m)
  have habove : value (m + 1) < value m' := value_strictMono (by omega)
  have hcloser : |value (m + 1) - q| < |value m - q| := by
    rw [abs_lt]
    rcases abs_cases (value m - q) with hm | hm <;>
    rcases abs_cases (value m' - q) with hm' | hm' <;>
    constructor <;> linarith
  exact absurd (h.near (n := m + 1) (by have := h'.le; omega)) (not_le.mpr hcloser)

/-- The nearest of the multiples at a scale is nearest among all magnitudes: others are multiples too,
or lie below a multiple that is nearer. -/
theorem isNearest_scaled (hx : q * unitsInOne = x) (hlow : scale = 0 ∨ binade * 2 ^ scale ≤ x)
    (hless : significand ≤ 2 * binade) (hfull : scale = 0 ∨ binade ≤ significand)
    (hle : scale * binade + significand ≤ infinity)
    (hmultiple : IsNearestMultiple (2 ^ scale) x significand) :
    IsNearest q (scale * binade + significand) := by
  have hunits : (units (scale * binade + significand) : ℚ) = significand * 2 ^ scale := by
    rw [units_scaled hless hfull, Nat.cast_mul, Nat.cast_pow, Nat.cast_ofNat]
  have hother (n : Nat) : (∃ k : Nat, (units n : ℚ) = k * 2 ^ scale) ∨
      |(significand : ℚ) * 2 ^ scale - x| < |units n - x| := by
    by_cases hn : scale = 0 ∨ (scale + 1) * binade ≤ n
    · obtain ⟨k, hk⟩ := exists_multiple hn
      exact Or.inl ⟨k, by rw [hk, Nat.cast_mul, Nat.cast_pow, Nat.cast_ofNat]⟩
    · obtain ⟨hscale, hn⟩ := not_or.mp hn
      have hleast := hlow.resolve_left hscale
      have hbelow : units n < binade * 2 ^ scale := by
        have hfirst : binade ≤ 2 * binade := by decide
        rw [← units_scaled hfirst (Or.inr (Nat.le_refl _))]
        apply units_strictMono
        rw [Nat.add_mul] at hn
        omega
      have hbelow' : (units n : ℚ) < binade * 2 ^ scale := by exact_mod_cast hbelow
      refine Or.inr ((hmultiple.near binade).trans_lt ?_)
      rw [abs_of_nonpos (by linarith), abs_of_neg (by linarith)]
      linarith
  refine ⟨hle, fun {n} _ => ?_, fun {n} _ hne h => ?_⟩
  · rw [abs_value_sub hx, abs_value_sub hx, hunits]
    refine div_le_div_of_nonneg_right ?_ unitsInOne_pos.le
    rcases hother n with ⟨k, hk⟩ | hlt
    · rw [hk]
      exact hmultiple.near k
    · exact hlt.le
  · rw [abs_value_sub hx, abs_value_sub hx, hunits] at h
    have hsame := (div_left_inj' unitsInOne_pos.ne').mp h
    rcases hother n with ⟨k, hk⟩ | hlt
    · have hk' : k ≠ significand := by
        rintro rfl
        rw [← hunits, Nat.cast_inj] at hk
        exact hne (units_strictMono.injective hk)
      rw [hk] at hsame
      exact ((by decide : Even binade).mul_left scale).add (hmultiple.even hk' hsame)
    · exact absurd hsame hlt.ne'

/-- Numbers beyond the greatest finite magnitudes are rounded to the infinity. -/
theorem isNearest_infinity (hx : q * unitsInOne = x) (hle : units infinity ≤ x) :
    IsNearest q infinity := by
  refine ⟨Nat.le_refl _, fun {n} hn => ?_, fun _ _ _ => by decide⟩
  have hunits : (units n : ℚ) ≤ units infinity :=
    Nat.cast_le.mpr (units_strictMono.monotone hn)
  rw [abs_value_sub hx, abs_value_sub hx]
  refine div_le_div_of_nonneg_right ?_ unitsInOne_pos.le
  rw [abs_of_nonpos (by linarith), abs_of_nonpos (by linarith)]
  linarith

/-- The scale that a number of units is rounded at keeps its significand between two binades. -/
theorem scale_spec {num den : Nat} (hden : 0 < den) (h : (num / den).log2 - 52 = scale) :
    (scale = 0 ∨ binade * (den * 2 ^ scale) ≤ num) ∧ num < 2 * binade * (den * 2 ^ scale) := by
  have hbinade : binade = 2 ^ 52 := rfl
  constructor
  · by_cases hscale : scale = 0
    · exact Or.inl hscale
    · right
      have hpos : num / den ≠ 0 := by
        intro hzero
        rw [hzero] at h
        exact hscale h.symm
      have hlog := Nat.log2_self_le hpos
      have hsum : (num / den).log2 = 52 + scale := by omega
      rw [hsum, pow_add, ← hbinade, Nat.le_div_iff_mul_le hden] at hlog
      rwa [Nat.mul_left_comm, Nat.mul_comm den]
  · have hlog : num / den < 2 ^ ((num / den).log2 + 1) := Nat.lt_log2_self
    have hsum : 2 ^ ((num / den).log2 + 1) ≤ 2 ^ (53 + scale) :=
      Nat.pow_le_pow_right (by decide) (by omega)
    have hless := hlog.trans_le hsum
    rw [Nat.div_lt_iff_lt_mul hden, pow_add, pow_succ', ← hbinade] at hless
    rwa [Nat.mul_left_comm, Nat.mul_comm den]

/-- Quotients are rounded to the nearest magnitude. -/
theorem isNearest_nearest {num den : Nat} (hden : 0 < den) :
    IsNearest ((num : ℚ) / den) (nearest num den) := by
  have hx : (num : ℚ) / den * unitsInOne = ((num * unitsInOne : Nat) : ℚ) / den := by
    rw [Nat.cast_mul, mul_div_right_comm]
  simp only [nearest, Nat.pow_eq]
  generalize num * unitsInOne = scaled at *
  generalize hscale : (scaled / den).log2 - 52 = scale
  obtain ⟨hlow, hhigh⟩ := scale_spec hden hscale
  have hpower : 0 < den * 2 ^ scale := Nat.mul_pos hden (Nat.two_pow_pos scale)
  have hmultiple : IsNearestMultiple (2 ^ scale) ((scaled : ℚ) / den)
      (roundDiv scaled (den * 2 ^ scale)) := by
    apply isNearestMultiple_roundDiv hpower (by positivity)
    rw [Nat.cast_mul, Nat.cast_pow, Nat.cast_ofNat, ← div_div, div_mul_cancel₀ _ (by positivity)]
  have hlow' : scale = 0 ∨ (binade : ℚ) * 2 ^ scale ≤ (scaled : ℚ) / den := by
    refine hlow.imp_right fun h => ?_
    rw [le_div_iff₀ (Nat.cast_pos.mpr hden)]
    calc (binade : ℚ) * 2 ^ scale * den = ((binade * (den * 2 ^ scale) : Nat) : ℚ) := by
          push_cast
          ring
      _ ≤ scaled := Nat.cast_le.mpr h
  have hless := roundDiv_le hhigh
  by_cases hle : scale * binade + roundDiv scaled (den * 2 ^ scale) ≤ infinity
  · rw [Nat.min_eq_right hle]
    exact isNearest_scaled hx hlow' hless (hlow.imp_right (le_roundDiv hpower)) hle hmultiple
  · rw [Nat.min_eq_left (Nat.le_of_not_le hle)]
    apply isNearest_infinity hx
    have hscale : 2046 ≤ scale := by
      rw [infinity, binade] at *
      omega
    have hinfinity : infinity = 2046 * binade + binade := rfl
    have hhuge := hlow'.resolve_left (by omega)
    generalize 2046 = top at hscale hinfinity
    rw [hinfinity, units_scaled (by decide) (Or.inr (Nat.le_refl _)), Nat.cast_mul, Nat.cast_pow,
      Nat.cast_ofNat]
    refine le_trans ?_ hhuge
    gcongr
    norm_num

end

end Binary64

end Calculator
