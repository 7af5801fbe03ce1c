import Calculator.Proofs.JsonGrammar
import Calculator.Proofs.PlainText

/-!
The texts of numbers as JSON numerals. Digits have no leading zeros, general notation puts a whole
number in front, and a fraction or an exponent is left out or has digits of its own.
-/

namespace Calculator

open Json

variable {figures text : Bytes}

theorem digits_of_le {n : Nat} (h : 10 ≤ n) :
    digits n = digits (n / 10) ++ [asciiByte (n % 10).digitChar] := by
  rw [digits, Nat.toDigits_of_base_le (by decide) h, List.map_append, List.map_singleton, ← digits]

theorem digits_ne_nil (n : Nat) : digits n ≠ [] :=
  fun h => Nat.toDigits_ne_nil (List.map_eq_nil_iff.mp h)

/-- Digits start with a zero only if they are the ones of zero itself: from ten on, the first digit
of a number is that of its tenth. -/
theorem digits_of_head {n : Nat} (hzero : (digits n).head? = some zeroDigit) :
    digits n = [zeroDigit] := by
  induction n using Nat.strongRecOn with
  | ind n ih =>
    by_cases hn : n < 10
    · rw [digits, Nat.toDigits_of_lt_base hn] at hzero ⊢
      rw [List.map_singleton, List.head?_cons, Option.some.injEq] at hzero
      rw [List.map_singleton, hzero]
    · have hten := Nat.le_of_not_lt hn
      have hhigh : digits (n / 10) = [zeroDigit] := by
        apply ih (n / 10) (Nat.div_lt_self (by omega) (by decide))
        rwa [digits_of_le hten, List.head?_append,
          Option.or_of_isSome (List.isSome_head?.mpr (digits_ne_nil _))] at hzero
      have hvalue := ofDigits_digits (n / 10)
      rw [hhigh, show ofDigits [zeroDigit] = 0 from ofDigits_digits 0] at hvalue
      exact absurd hvalue (Nat.ne_of_lt (Nat.div_pos hten (by decide)))

theorem isDigits_digits (n : Nat) : IsDigits (digits n) :=
  ⟨digits_ne_nil n, fun _ => isDigit_of_mem_digits⟩

theorem isWhole_digits (n : Nat) : IsWhole (digits n) :=
  ⟨isDigits_digits n, digits_of_head⟩

theorem isWhole_zero : IsWhole [zeroDigit] :=
  isWhole_digits 0

theorem isDigit_zeros (n : Nat) : ∀ byte ∈ List.replicate n zeroDigit, isDigit byte := by
  intro byte hbyte
  rw [List.eq_of_mem_replicate hbyte]
  decide

/-- The digits in front of a place in a whole number are a whole number. -/
theorem Json.IsWhole.take {n : Nat} (h : IsWhole text) : IsWhole (text.take (n + 1)) where
  ne_nil := by
    rw [Ne, List.take_eq_nil_iff]
    exact not_or.mpr ⟨Nat.succ_ne_zero n, h.ne_nil⟩
  digit byte hbyte := h.digit byte (List.mem_of_mem_take hbyte)
  lead hzero := by
    rw [List.head?_take, if_neg (Nat.succ_ne_zero n)] at hzero
    rw [h.lead hzero, List.take_succ_cons, List.take_nil]

theorem isFraction_fraction (h : ∀ byte ∈ figures, isDigit byte) :
    IsFraction (Decimal.fraction figures) := by
  have hkept : ∀ byte ∈ Decimal.trim figures, isDigit byte := by
    intro byte hbyte
    have hmem := (List.dropWhile_sublist _).subset (List.mem_reverse.mp hbyte)
    exact h byte (List.mem_reverse.mp hmem)
  unfold Decimal.fraction
  cases htrim : Decimal.trim figures with
  | nil => exact .absent
  | cons first others => exact .present ⟨List.cons_ne_nil _ _, htrim ▸ hkept⟩

theorem isExponent_exponentPart (order : Int) : IsExponent (Decimal.exponentPart order) := by
  have hfigures : IsDigits (List.replicate (2 - (digits order.natAbs).length) zeroDigit ++
      digits order.natAbs) := by
    refine ⟨List.append_ne_nil_of_right_ne_nil _ (digits_ne_nil _), ?_⟩
    exact List.forall_mem_append.mpr ⟨isDigit_zeros _, fun _ => isDigit_of_mem_digits⟩
  rw [Decimal.exponentPart, List.append_assoc]
  split
  · exact .present (Or.inl rfl) (Or.inr (Or.inr rfl)) hfigures
  · exact .present (Or.inl rfl) (Or.inr (Or.inl rfl)) hfigures

theorem mem_exponentPart (order : Int) : asciiByte 'e' ∈ Decimal.exponentPart order := by
  rw [Decimal.exponentPart, List.append_assoc]
  split <;> exact List.mem_append_left _ List.mem_cons_self

/-- General notation is a whole number with a fraction and an exponent where it needs them. -/
theorem Decimal.exists_general (precision : Nat) (d : Decimal) :
    ∃ whole fraction exponent, IsWhole whole ∧ IsFraction fraction ∧ IsExponent exponent ∧
      (exponent = [] ∨ asciiByte 'e' ∈ exponent) ∧
      d.general precision = whole ++ fraction ++ exponent := by
  have hwhole := isWhole_digits d.coefficient
  have hdrop (n : Nat) : IsFraction (Decimal.fraction ((digits d.coefficient).drop n)) :=
    isFraction_fraction fun byte hbyte => hwhole.digit byte (List.mem_of_mem_drop hbyte)
  unfold general
  dsimp only
  split
  · exact ⟨_, _, _, hwhole.take, hdrop 1, isExponent_exponentPart _, Or.inr (mem_exponentPart _),
      rfl⟩
  · split
    · exact ⟨_, _, [], hwhole.take, hdrop _, .absent, Or.inl rfl, (List.append_nil _).symm⟩
    · refine ⟨[zeroDigit], _, [], isWhole_zero, isFraction_fraction ?_, .absent, Or.inl rfl,
        (List.append_nil _).symm⟩
      exact List.forall_mem_append.mpr ⟨isDigit_zeros _, hwhole.digit⟩

theorem Binary64.exists_general (magnitude : Nat) :
    ∃ whole fraction exponent, IsWhole whole ∧ IsFraction fraction ∧ IsExponent exponent ∧
      (exponent = [] ∨ asciiByte 'e' ∈ exponent) ∧
      general magnitude = whole ++ fraction ++ exponent := by
  unfold general
  split
  · exact ⟨[zeroDigit], [], [], isWhole_zero, .absent, .absent, Or.inl rfl, rfl⟩
  · exact Decimal.exists_general _ _

/-- A double that would read as a whole number has neither fraction nor exponent, and is given a
fraction; all others show a point or an exponent. -/
theorem Binary64.markFraction_cases (magnitude : Nat) :
    (point ∈ general magnitude ∨ asciiByte 'e' ∈ general magnitude) ∧
        markFraction (general magnitude) = general magnitude ∨
      IsWhole (general magnitude) ∧
        markFraction (general magnitude) = general magnitude ++ ascii ".0" := by
  rw [markFraction]
  split
  · rename_i hmarks
    rw [Bool.or_eq_true, List.contains_iff_mem, List.contains_iff_mem] at hmarks
    exact Or.inl ⟨hmarks, rfl⟩
  · rename_i hmarks
    rw [Bool.or_eq_true, List.contains_iff_mem, List.contains_iff_mem, not_or] at hmarks
    obtain ⟨whole, fraction, exponent, hwhole, hfraction, hexponent, hletter, htext⟩ :=
      exists_general magnitude
    rw [htext] at hmarks
    obtain ⟨hpoint, he⟩ := hmarks
    have hexponent : exponent = [] := by
      rcases hletter with hletter | hletter
      · exact hletter
      · exact absurd (List.mem_append_right _ hletter) he
    have hfraction : fraction = [] := by
      cases hfraction with
      | absent => rfl
      | present => simp at hpoint
    rw [htext, hexponent, hfraction, List.append_nil, List.append_nil]
    exact Or.inr ⟨hwhole, rfl⟩

theorem Binary64.exists_markFraction (magnitude : Nat) :
    ∃ whole fraction exponent, IsWhole whole ∧ IsFraction fraction ∧ IsExponent exponent ∧
      markFraction (general magnitude) = whole ++ fraction ++ exponent := by
  rcases markFraction_cases magnitude with ⟨-, htext⟩ | ⟨hwhole, htext⟩ <;> rw [htext]
  · obtain ⟨whole, fraction, exponent, hwhole, hfraction, hexponent, -, hparts⟩ :=
      exists_general magnitude
    exact ⟨whole, fraction, exponent, hwhole, hfraction, hexponent, hparts⟩
  · exact ⟨_, ascii ".0", [], hwhole, .present (isDigits_digits 0), .absent,
      (List.append_nil _).symm⟩

theorem isNumeral_of_sign {whole fraction exponent : Bytes} (negative : Bool)
    (hwhole : IsWhole whole) (hfraction : IsFraction fraction) (hexponent : IsExponent exponent) :
    IsNumeral ((if negative then [minusSign] else []) ++ (whole ++ fraction ++ exponent)) := by
  rw [← List.append_assoc, ← List.append_assoc]
  cases negative with
  | true => exact .mk (Or.inr rfl) hwhole hfraction hexponent
  | false => exact .mk (Or.inl rfl) hwhole hfraction hexponent

/-- A finite number is written as a numeral. -/
theorem Number.isNumeral_text {n : Number} (h : n.isFinite) : IsNumeral n.text := by
  cases n with
  | whole value =>
      have hdigits := isNumeral_of_sign (decide (value.toInt < 0))
        (isWhole_digits value.toInt.natAbs) .absent .absent
      rw [List.append_nil, List.append_nil] at hdigits
      rw [text, wholeText]
      split
      · rename_i hneg
        rwa [if_pos (decide_eq_true hneg)] at hdigits
      · rename_i hneg
        rwa [if_neg (by simpa using hneg)] at hdigits
  | real x =>
      obtain ⟨whole, fraction, exponent, hwhole, hfraction, hexponent, hmarked⟩ :=
        Binary64.exists_markFraction (Binary64.magnitude x)
      have hfinite : Binary64.isFinite x := h
      have hnan : ¬Binary64.isNan x := by
        simp only [Binary64.isFinite, decide_eq_true_eq] at hfinite
        simp only [Binary64.isNan, decide_eq_true_eq]
        omega
      rw [text, Binary64.text, if_neg hnan, if_pos hfinite, hmarked]
      exact isNumeral_of_sign _ hwhole hfraction hexponent

theorem Json.IsNumeral.isPlain (h : IsNumeral text) : IsPlain text := by
  obtain ⟨hsign, hwhole, hfraction, hexponent⟩ := h
  rw [isPlain_append, isPlain_append, isPlain_append]
  refine ⟨⟨⟨?_, isPlain_of_isDigit hwhole.digit⟩, ?_⟩, ?_⟩
  · rcases hsign with rfl | rfl <;> decide
  · cases hfraction with
    | absent => exact isPlain_nil
    | present h => exact isPlain_cons.mpr ⟨by decide, isPlain_of_isDigit h.digit⟩
  · cases hexponent with
    | absent => exact isPlain_nil
    | present hletter hsign h =>
        rw [isPlain_append, isPlain_cons]
        refine ⟨⟨?_, ?_⟩, isPlain_of_isDigit h.digit⟩
        · rcases hletter with rfl | rfl <;> decide
        · rcases hsign with rfl | rfl | rfl <;> decide

end Calculator
