import Calculator.Proofs.WholeNumerals

/-!
Numerals with a point. The digits on either side of the point stand, by their places, for a multiple
of a power of ten. A reader of doubles reads this number, and so does the token: it is the nearest
double.
-/

namespace Calculator

open Binary64 (IsNearest)

variable {whole fraction run : Bytes}

theorem Decimal.read_fraction (hwhole : ∀ byte ∈ whole, isDigit byte)
    (hfraction : ∀ byte ∈ fraction, isDigit byte) :
    read (whole ++ point :: fraction) = ⟨ofDigits (whole ++ fraction), -fraction.length⟩ := by
  have hread := read_pointed hwhole hfraction not_isNumeral_nil
  rwa [List.append_nil, readExponent_nil, zero_sub] at hread

theorem Decimal.value_read_fraction (hwhole : ∀ byte ∈ whole, isDigit byte)
    (hfraction : ∀ byte ∈ fraction, isDigit byte) :
    (read (whole ++ point :: fraction)).value =
      placeValue (whole ++ fraction) / 10 ^ fraction.length := by
  rw [read_fraction hwhole hfraction, value, zpow_neg, zpow_natCast, ← div_eq_mul_inv,
    ofDigits_eq_placeValue]

namespace Number

/-- A run with a point is worth what a reader of doubles makes of its bytes. -/
theorem ofNumeral_eq_read (hrun : ∀ byte ∈ run, isNumeral byte) (hpoint : run.count point = 1) :
    ofNumeral run = .real (Binary64.read run) := by
  obtain ⟨whole, fraction, rfl, hwhole, hfraction⟩ := Cursor.exists_fraction hrun hpoint
  have hne : whole ++ point :: fraction ≠ [] := by simp
  calc ofNumeral (whole ++ point :: fraction)
      = .ofDecimal ⟨ofDigits (whole ++ fraction), -fraction.length⟩ :=
        Cursor.ofNumeral_pointed hwhole hfraction
    _ = .real (Binary64.read (whole ++ point :: fraction)) := by
        rw [ofDecimal, Binary64.read_of_isNumeral hne hrun, Decimal.read_fraction hwhole hfraction]

/-- Digits around a point are one token, the double nearest to the number they stand for. -/
theorem tokenize_pointed (hwhole : ∀ byte ∈ whole, isDigit byte)
    (hfraction : ∀ byte ∈ fraction, isDigit byte) (hsome : whole ++ fraction ≠ []) :
    tokenize (whole ++ point :: fraction) =
        .ok [.number (.real (Binary64.read (whole ++ point :: fraction)))] ∧
      ∃ m, Binary64.read (whole ++ point :: fraction) = Binary64.ofMagnitude false m ∧
        ∀ k, IsNearest (placeValue (whole ++ fraction) / 10 ^ fraction.length) k ↔ k = m := by
  have hrun := Cursor.isNumeral_of_mem_pointed hwhole hfraction
  have hcount := Cursor.count_point_pointed hwhole hfraction
  constructor
  · have hnumeral : IsNumeralRun (whole ++ point :: fraction) :=
      ⟨Cursor.exists_digit_pointed hwhole hfraction hsome, hcount.le⟩
    rw [← ofNumeral_eq_read hrun hcount]
    exact tokenize_body (.number hrun hnumeral)
  · rw [← Decimal.value_read_fraction hwhole hfraction]
    exact ⟨_, Binary64.read_of_isNumeral (by simp) hrun, fun _ => Binary64.isNearest_iff⟩

example : ofNumeral (ascii "1.5") = .real (Binary64.ofMagnitude false 0x3FF8000000000000) ∧
    2 * Binary64.units 0x3FF8000000000000 = 3 * Binary64.unitsInOne := by decide +kernel

end Number

end Calculator
