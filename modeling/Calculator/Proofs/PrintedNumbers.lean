import Calculator.Proofs.CorrectRounding
import Calculator.Proofs.NumberTexts

/-!
Numbers printed and read back. A double is printed with a number of significant digits, correctly
rounded, and read as the double nearest to a numeral. Seventeen digits are read back as the double
they were printed for, so the fewest digits that are exist, and its text is made of them. Texts tell
all numbers apart but for nan: infinities are the only ones without a digit, and only the texts of
whole numbers show nothing but a sign and digits.
-/

namespace Calculator

/-- What a positive number is rounded to with so many significant digits: of the multiples of what
its last digit stands for, the one nearest to it. -/
structure Decimal.IsRounded (d : Decimal) (places : Nat) (x : ℚ) : Prop where
  length : (digits d.coefficient).length = places
  nearest : ∃ (n : Nat) (last : Int), 10 ^ (last + places - 1) ≤ x ∧ x < 10 ^ (last + places) ∧
    IsNearestMultiple (10 ^ last) x n ∧ d.value = n * 10 ^ last

theorem Decimal.exists_digit_general (places : Nat) (d : Decimal) :
    ∃ byte rest, d.general places = byte :: rest ∧ isDigit byte := by
  obtain ⟨whole, fraction, exponent, hwhole, -, -, -, htext⟩ := exists_general places d
  obtain ⟨byte, others, rfl⟩ := List.exists_cons_of_ne_nil hwhole.ne_nil
  exact ⟨byte, others ++ fraction ++ exponent, htext, hwhole.digit byte List.mem_cons_self⟩

namespace Binary64

variable {x : Float} {m : Nat}

/-- A double with so many significant digits in general notation. -/
def printed (places : Nat) (x : Float) : Bytes :=
  sign (isNegative x) ++
    if magnitude x = 0 then [zeroDigit]
    else (round (magnitude x) (order (magnitude x)) places).general places

theorem isRounded_round (hm : 0 < m) (places : Nat) :
    (round m (order m) (places + 1)).IsRounded (places + 1) (value m) := by
  obtain ⟨hleast, hmost, -⟩ := round_spec hm places
  obtain ⟨hlow, hhigh⟩ := zpow_order_le hm
  obtain ⟨shift, hshift⟩ : ∃ shift : Int, shift = places - order m := ⟨_, rfl⟩
  have hfirst : -shift + (places + 1 : Nat) - 1 = order m := by omega
  have hbeyond : -shift + (places + 1 : Nat) = order m + 1 := by omega
  have hpos := lt_of_lt_of_le (Nat.pow_pos (by decide)) hleast
  refine ⟨(length_digits_eq_iff hpos).mpr ⟨hleast, hmost⟩, _, -shift, ?_, ?_, ?_,
    value_round m hshift⟩
  · rwa [hfirst]
  · rwa [hbeyond]
  · apply isNearestMultiple_roundDiv (Nat.mul_pos (Nat.cast_pos.mp unitsInOne_pos)
      (Nat.pow_pos (by decide))) (zpow_pos (by norm_num) _)
    refine (congrArg (· * _) (value_shifted m shift)).trans ?_
    rw [mul_assoc, ← zpow_add₀ (by norm_num), add_neg_cancel, zpow_zero, mul_one]

/-- The magnitude of a decimal is the one that is nearest to it. -/
theorem isNearest_iff {d : Decimal} : IsNearest d.value m ↔ m = ofDecimal d := by
  have hnearest : IsNearest d.value (ofDecimal d) := by
    rw [← d.numerator_div_denominator]
    exact isNearest_nearest d.denominator_pos
  constructor
  · exact fun h => h.unique hnearest
  · rintro rfl
    exact hnearest

theorem read_printed_zero (hx : magnitude x = 0) (places : Nat) : read (printed places x) = x := by
  have hzero : ofDecimal (Decimal.read [zeroDigit]) = 0 := by decide +kernel
  rw [printed, if_pos hx, read_sign _ (by decide), hzero, ← hx, ofMagnitude_magnitude]

/-- Whether a double is read back from its digits depends on the decimal that they write. -/
theorem read_printed_eq_iff (hx : 0 < magnitude x) (places : Nat) :
    read (printed (places + 1) x) = x ↔
      ofDecimal (round (magnitude x) (order (magnitude x)) (places + 1)) = magnitude x := by
  have hlength := (isRounded_round hx places).length
  generalize hd : round (magnitude x) (order (magnitude x)) (places + 1) = d at *
  obtain ⟨byte, rest, htext, hdigit⟩ := d.exists_digit_general (places + 1)
  rw [printed, if_neg hx.ne', hd, htext, read_sign _ (ne_minusSign_of_isDigit hdigit), ← htext,
    ofDecimal_congr (Decimal.value_read_general hlength)]
  constructor
  · intro h
    have hmagnitude := congrArg magnitude h
    rwa [magnitude_ofMagnitude (m := ofDecimal d) (nearest_le _ _)] at hmagnitude
  · intro h
    rw [h, ofMagnitude_magnitude]

theorem read_printed_seventeen (h : isFinite x) : read (printed 17 x) = x := by
  rcases Nat.eq_zero_or_pos (magnitude x) with hx | hx
  · exact read_printed_zero hx 17
  · exact (read_printed_eq_iff hx 16).mpr (ofDecimal_round_seventeen hx (of_decide_eq_true h))

theorem markFraction_sign (negative : Bool) (text : Bytes) :
    markFraction (sign negative ++ text) = sign negative ++ markFraction text := by
  have hpoint : (sign negative ++ text).contains point = text.contains point := by
    cases negative <;> simp [sign, minusSign, point]
  have hletter :
      (sign negative ++ text).contains (asciiByte 'e') = text.contains (asciiByte 'e') := by
    cases negative <;> simp [sign, minusSign, asciiByte]
  rw [markFraction, markFraction, hpoint, hletter]
  split
  · rfl
  · rw [List.append_assoc]

/-- The text of a finite double is made of the fewest digits that are read back as it. -/
theorem exists_fewest (h : isFinite x) : ∃ places ≤ 16,
    text x = markFraction (printed (places + 1) x) ∧ read (printed (places + 1) x) = x ∧
      ∀ k < places, read (printed (k + 1) x) ≠ x := by
  have htext : text x = markFraction (sign (isNegative x) ++ general (magnitude x)) := by
    rw [text_of_isFinite h, markFraction_sign]
  rcases Nat.eq_zero_or_pos (magnitude x) with hx | hx
  · refine ⟨0, Nat.zero_le 16, ?_, read_printed_zero hx 1, nofun⟩
    rw [htext, printed, if_pos hx, general, if_pos hx]
  · obtain ⟨places, hplaces, hle, hback, hfewer⟩ := exists_precision hx (of_decide_eq_true h)
    refine ⟨places, hle, ?_, (read_printed_eq_iff hx places).mpr hback, fun k hk => ?_⟩
    · rw [htext, printed, if_neg hx.ne']
      simp only [general, if_neg hx.ne', hplaces]
    · rw [Ne, read_printed_eq_iff hx k]
      exact hfewer k hk

theorem text_of_not_isFinite (h : ¬isFinite x) (hnan : ¬isNan x) :
    text x = sign (isNegative x) ++ ascii "inf" ∧ magnitude x = infinity := by
  refine ⟨by rw [text, if_neg hnan, if_neg h, sign], ?_⟩
  simp only [isFinite, isNan, decide_eq_true_eq] at h hnan
  omega

theorem letter_mem_text (h : ¬isFinite x) : asciiByte 'n' ∈ text x := by
  by_cases hnan : isNan x
  · rw [text, if_pos hnan]
    decide
  · rw [(text_of_not_isFinite h hnan).1]
    exact List.mem_append_right _ (by decide)

end Binary64

/-! ### Texts of numbers -/

namespace Number

open Binary64 (IsNearest sign printed)

def IsNan : Number → Prop
  | .whole _ => False
  | .real x => Binary64.isNan x

theorem letter_not_mem_text {n : Number} (h : n.isFinite) : asciiByte 'n' ∉ n.text := by
  obtain ⟨hjson, hbytes⟩ := json_of_isFinite h
  rw [← hjson]
  exact fun hmem => absurd (hbytes _ hmem) (by decide +kernel)

theorem letter_mem_text {n : Number} (h : ¬n.isFinite) : asciiByte 'n' ∈ n.text := by
  cases n with
  | whole => exact absurd rfl h
  | real x => exact Binary64.letter_mem_text h

theorem text_ne_of_isFinite {a b : Number} (ha : a.isFinite) (hb : ¬b.isFinite) :
    a.text ≠ b.text :=
  fun heq => letter_not_mem_text ha (heq ▸ letter_mem_text hb)

/-- Numbers other than nan are told by their texts. -/
theorem eq_of_text_eq {a b : Number} (ha : ¬a.IsNan) (hb : ¬b.IsNan) (h : a.text = b.text) :
    a = b := by
  by_cases hafinite : a.isFinite <;> by_cases hbfinite : b.isFinite
  · exact text_inj hafinite hbfinite h
  · exact absurd h (text_ne_of_isFinite hafinite hbfinite)
  · exact absurd h.symm (text_ne_of_isFinite hbfinite hafinite)
  · cases a with
    | whole => exact absurd rfl hafinite
    | real x =>
        cases b with
        | whole => exact absurd rfl hbfinite
        | real y =>
            obtain ⟨hx, hinfinity⟩ := Binary64.text_of_not_isFinite hafinite ha
            obtain ⟨hy, hinfinity'⟩ := Binary64.text_of_not_isFinite hbfinite hb
            rw [text, text, hx, hy] at h
            have hsign : Binary64.isNegative x = Binary64.isNegative y := by
              revert h
              cases Binary64.isNegative x <;> cases Binary64.isNegative y <;> decide
            rw [Binary64.eq_of_magnitude hsign (hinfinity.trans hinfinity'.symm)]

theorem whole_text_ne (n : Int64) (x : Float) : text (.whole n) ≠ text (.real x) := by
  by_cases hx : Binary64.isFinite x
  · exact wholeText_ne hx
  · exact text_ne_of_isFinite rfl hx

/-- The text of a number encodes it faithfully. Reading rounds to the nearest double, printing
to so many digits rounds to the nearest decimal; then there are at most seventeen digits that are
read back as a finite double, its text is made of the fewest of them and is read back as it, and no
two numbers but nan have the same text. -/
theorem text_isFaithful :
    (∀ negative byte text, byte ≠ minusSign →
      ∃ m, Binary64.read (sign negative ++ byte :: text) = Binary64.ofMagnitude negative m ∧
        ∀ k, IsNearest (Decimal.read (byte :: text)).value k ↔ k = m) ∧
    (∀ x places,
      (Binary64.magnitude x = 0 →
        printed (places + 1) x = sign (Binary64.isNegative x) ++ [zeroDigit]) ∧
      (0 < Binary64.magnitude x → ∃ d : Decimal,
        d.IsRounded (places + 1) (Binary64.value (Binary64.magnitude x)) ∧
        printed (places + 1) x = sign (Binary64.isNegative x) ++ d.general (places + 1) ∧
        (Decimal.read (d.general (places + 1))).value = d.value)) ∧
    (∀ x, Binary64.isFinite x →
      (∃ places ≤ 16, text (.real x) = Binary64.markFraction (printed (places + 1) x) ∧
        Binary64.read (printed (places + 1) x) = x ∧
        ∀ k < places, Binary64.read (printed (k + 1) x) ≠ x) ∧
      Binary64.read (printed 17 x) = x ∧ Binary64.read (text (.real x)) = x) ∧
    (∀ a b : Number, ¬a.IsNan → ¬b.IsNan → a.text = b.text →
      (∃ n, a = .whole n ∧ b = .whole n) ∨
        ∃ x y, a = .real x ∧ b = .real y ∧ x.toBits = y.toBits) ∧
    ∀ n x, text (.whole n) ≠ text (.real x) := by
  refine ⟨?_, ?_, ?_, ?_, whole_text_ne⟩
  · intro negative byte text hbyte
    exact ⟨_, Binary64.read_sign negative hbyte text, fun _ => Binary64.isNearest_iff⟩
  · intro x places
    refine ⟨fun hx => by rw [printed, if_pos hx], fun hx => ?_⟩
    have hrounded := Binary64.isRounded_round hx places
    exact ⟨_, hrounded, by rw [printed, if_neg hx.ne'], Decimal.value_read_general hrounded.length⟩
  · intro x hx
    exact ⟨Binary64.exists_fewest hx, Binary64.read_printed_seventeen hx, Binary64.read_text hx⟩
  · intro a b ha hb h
    obtain rfl := eq_of_text_eq ha hb h
    cases a with
    | whole n => exact Or.inl ⟨n, rfl, rfl⟩
    | real x => exact Or.inr ⟨x, x, rfl, rfl, rfl⟩

/-- The negative double next to zero, which one digit tells from its neighbours. -/
theorem text_isFaithful_leastDouble :
    ∃ x, Binary64.isNegative x ∧ 0 < Binary64.magnitude x ∧ Binary64.isFinite x ∧
      Binary64.read (text (.real x)) = x ∧
      (∃ d : Decimal, d.IsRounded 1 (Binary64.value (Binary64.magnitude x)) ∧
        printed 1 x = minusSign :: d.general 1) ∧
      (∃ m, Binary64.read (ascii "-5e-324") = Binary64.ofMagnitude true m ∧
        ∀ k, IsNearest (Decimal.read (ascii "5e-324")).value k ↔ k = m) ∧
      ¬IsNan (.real x) ∧ text (.real x) ≠ text (.real (Binary64.ofMagnitude false 1)) := by
  have hmagnitude (negative : Bool) : Binary64.magnitude (Binary64.ofMagnitude negative 1) = 1 :=
    Binary64.magnitude_ofMagnitude (by decide) negative
  have hsign (negative : Bool) : Binary64.isNegative (Binary64.ofMagnitude negative 1) = negative :=
    Binary64.isNegative_ofMagnitude (by decide) negative
  have hfinite : Binary64.isFinite (Binary64.ofMagnitude true 1) := by
    rw [Binary64.isFinite, hmagnitude]
    decide
  have hnan (negative : Bool) : ¬IsNan (.real (Binary64.ofMagnitude negative 1)) := by
    rw [IsNan, Binary64.isNan, hmagnitude]
    decide
  obtain ⟨hread, hprinted, hfaithful, htexts, -⟩ := text_isFaithful
  have hpos : 0 < Binary64.magnitude (Binary64.ofMagnitude true 1) := by
    rw [hmagnitude]
    decide
  refine ⟨_, hsign true, hpos, hfinite, (hfaithful _ hfinite).2.2, ?_,
    hread true (asciiByte '5') (ascii "e-324") (by decide), hnan true, ?_⟩
  · obtain ⟨d, hrounded, htext, -⟩ := (hprinted _ 0).2 hpos
    exact ⟨d, hrounded, by rwa [hsign] at htext⟩
  · intro h
    rcases htexts _ _ (hnan true) (hnan false) h with ⟨n, hn, -⟩ | ⟨x, y, hx, hy, hbits⟩
    · cases hn
    · cases hx
      cases hy
      have := congrArg UInt64.toNat hbits
      rw [Binary64.toNat_toBits_ofMagnitude (by decide),
        Binary64.toNat_toBits_ofMagnitude (by decide)] at this
      exact absurd this (by decide)

end Number

end Calculator
