import Calculator.Number.Checked

/-!
The checks on words are exact: a sum, difference or product of words is given if and only if the
result over the whole numbers is a word, and then it is that result. The bounds that the checks
compare with are differences, sums and quotients of words, and where they are looked at none of
these leaves the words either.
-/

namespace Calculator

def IsWord (n : Int) : Prop := -0x8000000000000000 ≤ n ∧ n ≤ 0x7FFFFFFFFFFFFFFF

instance : DecidablePred IsWord := fun n =>
  inferInstanceAs (Decidable (-0x8000000000000000 ≤ n ∧ n ≤ 0x7FFFFFFFFFFFFFFF))

theorem isWord_toInt (a : Int64) : IsWord a.toInt := by
  have hlow := a.le_toInt
  have hhigh := a.toInt_lt
  constructor <;> omega

theorem exists_toInt_eq_iff {n : Int} : (∃ a : Int64, a.toInt = n) ↔ IsWord n := by
  constructor
  · rintro ⟨a, rfl⟩
    exact isWord_toInt a
  · rintro ⟨hlow, hhigh⟩
    exact ⟨Int64.ofInt n, Int64.toInt_ofInt_of_le (by omega) (by omega)⟩

namespace Checked

theorem toInt_maxValue : Int64.maxValue.toInt = 0x7FFFFFFFFFFFFFFF := rfl

theorem toInt_minValue : Int64.minValue.toInt = -0x8000000000000000 := rfl

theorem bmod_of_isWord {n : Int} {size : Nat} (hsize : size = 0x10000000000000000) (h : IsWord n) :
    n.bmod size = n := by
  obtain ⟨hlow, hhigh⟩ := h
  exact Int.bmod_eq_of_le (by omega) (by omega)

theorem toInt_add {a b : Int64} (h : IsWord (a.toInt + b.toInt)) :
    (a + b).toInt = a.toInt + b.toInt := by
  rw [Int64.toInt_add, bmod_of_isWord rfl h]

theorem toInt_sub {a b : Int64} (h : IsWord (a.toInt - b.toInt)) :
    (a - b).toInt = a.toInt - b.toInt := by
  rw [Int64.toInt_sub, bmod_of_isWord rfl h]

theorem toInt_mul {a b : Int64} (h : IsWord (a.toInt * b.toInt)) :
    (a * b).toInt = a.toInt * b.toInt := by
  rw [Int64.toInt_mul, bmod_of_isWord rfl h]

variable {a b : Int64}

theorem toInt_maxValue_sub (hb : 0 < b.toInt) :
    (Int64.maxValue - b).toInt = 0x7FFFFFFFFFFFFFFF - b.toInt := by
  obtain ⟨-, hhigh⟩ := isWord_toInt b
  rw [toInt_sub (by rw [toInt_maxValue]; constructor <;> omega), toInt_maxValue]

theorem toInt_minValue_sub (hb : b.toInt < 0) :
    (Int64.minValue - b).toInt = -0x8000000000000000 - b.toInt := by
  obtain ⟨hlow, -⟩ := isWord_toInt b
  rw [toInt_sub (by rw [toInt_minValue]; constructor <;> omega), toInt_minValue]

theorem toInt_maxValue_add (hb : b.toInt < 0) :
    (Int64.maxValue + b).toInt = 0x7FFFFFFFFFFFFFFF + b.toInt := by
  obtain ⟨hlow, -⟩ := isWord_toInt b
  rw [toInt_add (by rw [toInt_maxValue]; constructor <;> omega), toInt_maxValue]

theorem toInt_minValue_add (hb : 0 < b.toInt) :
    (Int64.minValue + b).toInt = -0x8000000000000000 + b.toInt := by
  obtain ⟨-, hhigh⟩ := isWord_toInt b
  rw [toInt_add (by rw [toInt_minValue]; constructor <;> omega), toInt_minValue]

theorem toInt_maxValue_div (a : Int64) :
    (Int64.maxValue / a).toInt = Int.tdiv 0x7FFFFFFFFFFFFFFF a.toInt := by
  rw [Int64.toInt_div_of_ne_left _ _ (by decide), toInt_maxValue]

/-- The one quotient of words that is no word needs the divisor `-1`. -/
theorem toInt_minValue_div (ha : 0 < a.toInt) :
    (Int64.minValue / a).toInt = Int.tdiv (-0x8000000000000000) a.toInt := by
  rw [Int64.toInt_div_of_ne_right, toInt_minValue]
  rintro rfl
  exact absurd ha (by decide)

theorem tdiv_lt_iff {m x y : Int} (hm : 0 ≤ m) (hy : 0 < y) : m.tdiv y < x ↔ m < x * y := by
  rw [Int.tdiv_eq_ediv_of_nonneg hm, Int.ediv_lt_iff_lt_mul hy]

theorem lt_neg_tdiv_iff {m x y : Int} (hm : 0 ≤ m) (hy : 0 < y) :
    x < (-m).tdiv y ↔ x * y < -m := by
  have hquotient := tdiv_lt_iff (x := -x) hm hy
  rw [Int.neg_mul] at hquotient
  rw [Int.neg_tdiv]
  omega

theorem lt_tdiv_neg_iff {m x y : Int} (hm : 0 ≤ m) (hy : y < 0) : x < m.tdiv y ↔ m < x * y := by
  have hquotient := tdiv_lt_iff (x := -x) (y := -y) hm (by omega)
  rw [Int.neg_mul_neg, Int.tdiv_neg] at hquotient
  omega

/-- What a check amounts to that refuses exactly what is no word. -/
theorem ite_eq_some_iff {refuses : Prop} [Decidable refuses] {result c : Int64} {n : Int}
    (hrefuses : refuses ↔ ¬IsWord n) (hresult : IsWord n → result.toInt = n) :
    (if refuses then none else some result) = some c ↔ c.toInt = n := by
  by_cases hn : IsWord n
  · rw [if_neg (fun h => hrefuses.mp h hn), Option.some_inj, ← Int64.toInt_inj, hresult hn, eq_comm]
  · rw [if_pos (hrefuses.mpr hn)]
    refine ⟨fun h => by simp at h, fun h => absurd ?_ hn⟩
    rw [← h]
    exact isWord_toInt c

theorem add?_eq_some_iff {c : Int64} : add? a b = some c ↔ c.toInt = a.toInt + b.toInt := by
  refine ite_eq_some_iff ?_ toInt_add
  obtain ⟨hlow, hhigh⟩ := isWord_toInt a
  simp only [Int64.lt_iff_toInt_lt, Int64.toInt_zero, IsWord]
  rcases Int.lt_trichotomy b.toInt 0 with hb | hb | hb
  · rw [toInt_minValue_sub hb]
    omega
  · omega
  · rw [toInt_maxValue_sub hb]
    omega

theorem sub?_eq_some_iff {c : Int64} : sub? a b = some c ↔ c.toInt = a.toInt - b.toInt := by
  refine ite_eq_some_iff ?_ toInt_sub
  obtain ⟨hlow, hhigh⟩ := isWord_toInt a
  simp only [Int64.lt_iff_toInt_lt, Int64.toInt_zero, IsWord]
  rcases Int.lt_trichotomy b.toInt 0 with hb | hb | hb
  · rw [toInt_maxValue_add hb]
    omega
  · omega
  · rw [toInt_minValue_add hb]
    omega

/-- On each side of zero one bound alone can be passed, the one on the side of the product. -/
theorem mulOverflows_iff : mulOverflows a b = true ↔ ¬IsWord (a.toInt * b.toInt) := by
  have hzero : a != 0 ↔ a.toInt ≠ 0 := by
    rw [bne_iff_ne, ne_eq, ← Int64.toInt_inj, Int64.toInt_zero]
  simp only [mulOverflows, Int64.lt_iff_toInt_lt, Int64.toInt_zero, IsWord]
  by_cases ha : 0 < a.toInt <;> by_cases hb : 0 < b.toInt
  · have hsign := Int.mul_pos ha hb
    rw [if_pos ha, if_pos hb, decide_eq_true_iff, toInt_maxValue_div, tdiv_lt_iff (by omega) hb]
    omega
  · have hsign := Int.mul_nonpos_of_nonneg_of_nonpos (by omega : 0 ≤ a.toInt) (Int.not_lt.mp hb)
    rw [if_pos ha, if_neg hb, decide_eq_true_iff, toInt_minValue_div ha,
      lt_neg_tdiv_iff (by omega) ha, Int.mul_comm]
    omega
  · have hsign := Int.mul_nonpos_of_nonpos_of_nonneg (Int.not_lt.mp ha) (by omega : 0 ≤ b.toInt)
    rw [if_neg ha, if_pos hb, decide_eq_true_iff, toInt_minValue_div hb,
      lt_neg_tdiv_iff (by omega) hb]
    omega
  · have hsign := Int.mul_nonneg_of_nonpos_of_nonpos (Int.not_lt.mp ha) (Int.not_lt.mp hb)
    rw [if_neg ha, if_neg hb, Bool.and_eq_true, decide_eq_true_iff, hzero, toInt_maxValue_div]
    by_cases hnone : a.toInt = 0
    · rw [hnone, Int.zero_mul]
      omega
    · rw [lt_tdiv_neg_iff (by omega) (by omega), Int.mul_comm]
      omega

theorem mul?_eq_some_iff {c : Int64} : mul? a b = some c ↔ c.toInt = a.toInt * b.toInt :=
  ite_eq_some_iff mulOverflows_iff toInt_mul

end Checked

end Calculator
