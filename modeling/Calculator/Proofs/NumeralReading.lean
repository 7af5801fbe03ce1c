import Calculator.Proofs.CursorStep
import Calculator.Proofs.FloatBits
import Calculator.Proofs.ShortestDecimal

/-!
Numerals read back. A reader takes the digits of a numeral and moves the point by its exponent. On
the text of a decimal in general notation it finds a decimal of the same value, whichever zeros were
left out at the end of the fraction, so the text of a finite double is read back as that double.
-/

namespace Calculator

namespace Decimal

/-- The exponent of a numeral, behind its letter. -/
def readExponent : Bytes → Int
  | _ :: sign :: figures => if sign = minusSign then -(ofDigits figures) else ofDigits figures
  | _ => 0

/-- The decimal that a numeral without a sign stands for. -/
def read (text : Bytes) : Decimal :=
  let whole := text.takeWhile isDigit
  let behind := text.dropWhile isDigit
  let fraction := if behind.head? = some point then behind.tail.takeWhile isDigit else []
  let exponent := if behind.head? = some point then behind.tail.dropWhile isDigit else behind
  ⟨ofDigits (whole ++ fraction), readExponent exponent - fraction.length⟩

section
variable {whole figures kept exponent : Bytes}

theorem ofDigits_append (a b : Bytes) :
    ofDigits (a ++ b) = ofDigits a * 10 ^ b.length + ofDigits b := by
  simp only [ofDigits_eq_foldl, List.foldl_append]
  generalize a.foldl (fun n byte => 10 * n + digitValue byte) 0 = start
  induction b generalizing start with
  | nil => simp
  | cons byte b ih =>
      rw [List.foldl_cons, List.foldl_cons, ih, ih (10 * 0 + digitValue byte), List.length_cons,
        pow_succ]
      ring

theorem ofDigits_zeros (n : Nat) : ofDigits (List.replicate n zeroDigit) = 0 := by
  rw [ofDigits_eq_foldl]
  induction n with
  | zero => rfl
  | succ n ih => exact ih

theorem exists_zeros (figures : Bytes) :
    ∃ n, figures = trim figures ++ List.replicate n zeroDigit := by
  have hzeros : ∀ byte ∈ figures.reverse.takeWhile (· == zeroDigit), byte = zeroDigit :=
    fun byte hbyte => beq_iff_eq.mp (List.mem_takeWhile_imp (p := (· == zeroDigit)) hbyte)
  refine ⟨(figures.reverse.takeWhile (· == zeroDigit)).length, ?_⟩
  rw [trim, ← List.reverse_inj, List.reverse_append, List.reverse_reverse, List.reverse_replicate,
    ← List.eq_replicate_of_mem hzeros, List.takeWhile_append_dropWhile]

theorem takeWhile_digits {rest : Bytes} (hfigures : ∀ byte ∈ figures, isDigit byte)
    (hrest : ∀ byte ∈ rest.head?, ¬isDigit byte) :
    (figures ++ rest).takeWhile isDigit = figures ∧ (figures ++ rest).dropWhile isDigit = rest := by
  have htake := Cursor.takeWhile_run hfigures hrest
  refine ⟨htake, ?_⟩
  have happend := (figures ++ rest).takeWhile_append_dropWhile (p := isDigit)
  rwa [htake, List.append_cancel_left_eq] at happend

/-- A numeral is read part by part: the whole part, the digits behind a point and the exponent. -/
theorem read_whole (hwhole : ∀ byte ∈ whole, isDigit byte)
    (hexponent : ∀ byte ∈ exponent.head?, ¬isNumeral byte) :
    read (whole ++ exponent) = ⟨ofDigits whole, readExponent exponent⟩ := by
  have hdigit : ∀ byte ∈ exponent.head?, ¬isDigit byte :=
    fun byte hbyte h => hexponent byte hbyte (isNumeral_of_isDigit h)
  have hpoint : exponent.head? ≠ some point := fun h => hexponent point h (by decide)
  obtain ⟨htake, hdrop⟩ := takeWhile_digits hwhole hdigit
  simp only [read, htake, hdrop, if_neg hpoint, List.append_nil, List.length_nil, Int.natCast_zero,
    sub_zero]

theorem read_pointed (hwhole : ∀ byte ∈ whole, isDigit byte) (hkept : ∀ byte ∈ kept, isDigit byte)
    (hexponent : ∀ byte ∈ exponent.head?, ¬isNumeral byte) :
    read (whole ++ point :: (kept ++ exponent)) =
      ⟨ofDigits (whole ++ kept), readExponent exponent - kept.length⟩ := by
  have hdigit : ∀ byte ∈ exponent.head?, ¬isDigit byte :=
    fun byte hbyte h => hexponent byte hbyte (isNumeral_of_isDigit h)
  have hpoint : ∀ byte ∈ (point :: (kept ++ exponent)).head?, ¬isDigit byte := by
    rintro _ ⟨⟩
    exact not_isDigit_point
  obtain ⟨htake, hdrop⟩ := takeWhile_digits hwhole hpoint
  obtain ⟨htake', hdrop'⟩ := takeWhile_digits hkept hdigit
  simp only [read, htake, hdrop, List.head?_cons, if_true, List.tail_cons, htake', hdrop']

/-- The digits of a decimal are read at their places; the zeros left out at the end of its fraction
do not count. -/
theorem value_read {d : Decimal} (hwhole : ∀ byte ∈ whole, isDigit byte)
    (hfigures : ∀ byte ∈ figures, isDigit byte)
    (hexponent : ∀ byte ∈ exponent.head?, ¬isNumeral byte)
    (hcoefficient : ofDigits (whole ++ figures) = d.coefficient)
    (hplaces : readExponent exponent - figures.length = d.exponent) :
    (read (whole ++ fraction figures ++ exponent)).value = d.value := by
  obtain ⟨n, hzeros⟩ := exists_zeros figures
  have hread : read (whole ++ fraction figures ++ exponent) =
      ⟨ofDigits (whole ++ trim figures), readExponent exponent - (trim figures).length⟩ := by
    rw [fraction]
    cases htrim : trim figures with
    | nil =>
        simp only [List.append_nil, List.length_nil, Int.natCast_zero, sub_zero]
        exact read_whole hwhole hexponent
    | cons first others =>
        rw [List.append_assoc, List.cons_append]
        refine read_pointed hwhole (fun byte hbyte => hfigures byte ?_) hexponent
        rw [hzeros, htrim]
        exact List.mem_append_left _ hbyte
  rw [hread, value, value, ← hcoefficient, ← hplaces]
  generalize trim figures = kept at *
  subst hzeros
  have hlength : readExponent exponent - (kept ++ List.replicate n zeroDigit).length =
      readExponent exponent - kept.length - n := by
    rw [List.length_append, List.length_replicate]
    omega
  rw [hlength, zpow_sub₀ (by norm_num) _ (n : Int), ← List.append_assoc,
    ofDigits_append (whole ++ kept), ofDigits_zeros, List.length_replicate, Nat.add_zero,
    Nat.cast_mul, Nat.cast_pow, Nat.cast_ofNat, zpow_natCast, mul_assoc, mul_div_cancel₀]
  positivity

end

theorem ofDigits_leadingZeros (n : Nat) (figures : Bytes) :
    ofDigits (List.replicate n zeroDigit ++ figures) = ofDigits figures := by
  rw [ofDigits_append, ofDigits_zeros, Nat.zero_mul, Nat.zero_add]

theorem readExponent_nil : readExponent [] = 0 := rfl

theorem not_isNumeral_nil : ∀ byte ∈ ([] : Bytes).head?, ¬isNumeral byte :=
  fun _ hbyte => nomatch hbyte

theorem readExponent_exponentPart (order : Int) : readExponent (exponentPart order) = order := by
  have hfigures : ofDigits (List.replicate (2 - (digits order.natAbs).length) zeroDigit ++
      digits order.natAbs) = order.natAbs := by
    rw [ofDigits_leadingZeros, ofDigits_digits]
  rw [exponentPart, List.append_assoc]
  split
  · have hletters : ascii "e-" = [asciiByte 'e', minusSign] := by decide
    rw [hletters, List.cons_append, List.singleton_append, readExponent, if_pos rfl, hfigures]
    omega
  · have hletters : ascii "e+" = [asciiByte 'e', asciiByte '+'] := by decide
    rw [hletters, List.cons_append, List.singleton_append, readExponent, if_neg (by decide),
      hfigures]
    omega

theorem not_isNumeral_exponentPart (order : Int) :
    ∀ byte ∈ (exponentPart order).head?, ¬isNumeral byte := by
  rw [exponentPart, List.append_assoc]
  split <;> rintro _ ⟨⟩ <;> decide

/-- General notation shows all digits of a decimal at their places, whichever form it takes. -/
theorem value_read_general {d : Decimal} {places : Nat}
    (hlength : (digits d.coefficient).length = places + 1) :
    (read (d.general (places + 1))).value = d.value := by
  have hdigit : ∀ byte ∈ digits d.coefficient, isDigit byte := fun _ => isDigit_of_mem_digits
  have htake (n : Nat) : ∀ byte ∈ (digits d.coefficient).take n, isDigit byte :=
    fun byte hbyte => hdigit byte (List.mem_of_mem_take hbyte)
  have hdrop (n : Nat) : ∀ byte ∈ (digits d.coefficient).drop n, isDigit byte :=
    fun byte hbyte => hdigit byte (List.mem_of_mem_drop hbyte)
  have hsplit (n : Nat) : ofDigits ((digits d.coefficient).take n ++
      (digits d.coefficient).drop n) = d.coefficient := by
    rw [List.take_append_drop, ofDigits_digits]
  rw [general]
  split
  · apply value_read (htake 1) (hdrop 1) (not_isNumeral_exponentPart _) (hsplit 1)
    rw [readExponent_exponentPart, List.length_drop, hlength]
    omega
  · split
    · rw [← List.append_nil (_ ++ fraction _)]
      apply value_read (htake _) (hdrop _) not_isNumeral_nil (hsplit _)
      rw [List.length_drop, hlength, readExponent_nil]
      omega
    · rw [← List.singleton_append, ← List.append_nil ([zeroDigit] ++ fraction _)]
      apply value_read (List.forall_mem_singleton.mpr (by decide)) ?_ not_isNumeral_nil
      · rw [List.singleton_append, ← List.cons_append, ← List.replicate_succ,
          ofDigits_leadingZeros, ofDigits_digits]
      · rw [List.length_append, List.length_replicate, hlength, readExponent_nil]
        omega
      · exact List.forall_mem_append.mpr ⟨isDigit_zeros _, hdigit⟩

end Decimal

namespace Binary64

variable {m : Nat}

theorem ofDecimal_read_general (hfinite : m < infinity) :
    ofDecimal (Decimal.read (general m)) = m := by
  rcases Nat.eq_zero_or_pos m with rfl | hm
  · decide +kernel
  · obtain ⟨places, hplaces, -, hback, -⟩ := exists_precision hm hfinite
    obtain ⟨hlow, hhigh, -⟩ := round_spec hm places
    have hpos := lt_of_lt_of_le (Nat.pow_pos (by decide)) hlow
    have hlength := (length_digits_eq_iff hpos).mpr ⟨hlow, hhigh⟩
    have htext : general m = (round m (order m) (places + 1)).general (places + 1) := by
      simp only [general, if_neg hm.ne', hplaces]
    rw [htext, ofDecimal_congr (Decimal.value_read_general hlength), hback]

/-- The text of a finite magnitude is read back as that magnitude. -/
theorem ofDecimal_read_markFraction (hfinite : m < infinity) :
    ofDecimal (Decimal.read (markFraction (general m))) = m := by
  rcases markFraction_cases m with ⟨-, htext⟩ | ⟨hwhole, htext⟩ <;> rw [htext]
  · exact ofDecimal_read_general hfinite
  · have hwhole' := Decimal.read_whole hwhole.digit Decimal.not_isNumeral_nil
    have hpointed : Decimal.read (general m ++ ascii ".0") =
        ⟨ofDigits (general m ++ [zeroDigit]), Decimal.readExponent [] - 1⟩ :=
      Decimal.read_pointed hwhole.digit (List.forall_mem_singleton.mpr (by decide))
        Decimal.not_isNumeral_nil
    rw [List.append_nil] at hwhole'
    have hsame : (Decimal.read (general m ++ ascii ".0")).value =
        (Decimal.read (general m)).value := by
      rw [hpointed, hwhole', Decimal.value, Decimal.value, Decimal.ofDigits_append,
        Decimal.readExponent_nil]
      simp [show ofDigits [zeroDigit] = 0 from Decimal.ofDigits_zeros 1]
    rw [ofDecimal_congr hsame, ofDecimal_read_general hfinite]

/-- The double that a numeral stands for. -/
def read : Bytes → Float
  | [] => ofMagnitude false 0
  | byte :: rest =>
    if byte = minusSign then ofMagnitude true (ofDecimal (Decimal.read rest))
    else ofMagnitude false (ofDecimal (Decimal.read (byte :: rest)))

/-- What stands in front of the digits of a number. -/
def sign (negative : Bool) : Bytes := if negative then [minusSign] else []

theorem read_sign {byte : UInt8} (negative : Bool) (hbyte : byte ≠ minusSign) (text : Bytes) :
    read (sign negative ++ byte :: text) =
      ofMagnitude negative (ofDecimal (Decimal.read (byte :: text))) := by
  cases negative with
  | true => rfl
  | false => exact if_neg hbyte

theorem ne_minusSign_of_isDigit {byte : UInt8} (h : isDigit byte) : byte ≠ minusSign := by
  rintro rfl
  exact absurd h (by decide)

theorem read_of_isNumeral {run : Bytes} (hne : run ≠ []) (h : ∀ byte ∈ run, isNumeral byte) :
    read run = ofMagnitude false (ofDecimal (Decimal.read run)) := by
  obtain ⟨byte, others, rfl⟩ := List.exists_cons_of_ne_nil hne
  refine if_neg ?_
  rintro rfl
  exact absurd (h _ List.mem_cons_self) (by decide)

theorem text_of_isFinite {x : Float} (h : isFinite x) :
    text x = sign (isNegative x) ++ markFraction (general (magnitude x)) := by
  have hnan : ¬isNan x := by
    simp only [isFinite, decide_eq_true_eq] at h
    simp only [isNan, decide_eq_true_eq]
    omega
  rw [text, if_neg hnan, if_pos h, sign]

theorem exists_digit (m : Nat) :
    ∃ byte rest, markFraction (general m) = byte :: rest ∧ isDigit byte := by
  obtain ⟨whole, fraction, exponent, hwhole, -, -, htext⟩ := exists_markFraction m
  obtain ⟨byte, others, rfl⟩ := List.exists_cons_of_ne_nil hwhole.ne_nil
  exact ⟨byte, others ++ fraction ++ exponent, htext, hwhole.digit byte List.mem_cons_self⟩

/-- The text of a finite double is read back as the double, whose sign it shows. -/
theorem read_text {x : Float} (h : isFinite x) : read (text x) = x := by
  have hback := ofDecimal_read_markFraction (of_decide_eq_true h)
  obtain ⟨byte, rest, htext, hdigit⟩ := exists_digit (magnitude x)
  rw [htext] at hback
  rw [text_of_isFinite h, htext, read_sign _ (ne_minusSign_of_isDigit hdigit), hback,
    ofMagnitude_magnitude]

end Binary64

end Calculator
