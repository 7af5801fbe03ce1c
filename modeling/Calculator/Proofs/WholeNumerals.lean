import Calculator.Proofs.PrintedNumbers
import Calculator.Proofs.ScriptAppend

/-!
Whole numerals. Digits without a point are one token, however many they are and whichever zeros they
start with: the word that they stand for by their places, or the double nearest to it when that is
no word. The choice is the one that a word makes to which the digits are added one by one
(`gather?_eq`). The text of a word is read as the word, with a minus in front if it is negative;
only the magnitude of the least word is no word itself.
-/

namespace Calculator

/-- The number that digits stand for by their places. -/
def placeValue (figures : Bytes) : Nat := Nat.ofDigits 10 (figures.reverse.map digitValue)

theorem placeValue_concat (figures : Bytes) (byte : UInt8) :
    placeValue (figures ++ [byte]) = 10 * placeValue figures + digitValue byte := by
  rw [placeValue, List.reverse_append, List.reverse_singleton, List.singleton_append,
    List.map_cons, Nat.ofDigits_cons, Nat.add_comm]
  rfl

theorem ofDigits_eq_placeValue (figures : Bytes) : ofDigits figures = placeValue figures := by
  induction figures using List.reverseRecOn with
  | nil => rfl
  | append_singleton figures byte ih =>
      rw [placeValue_concat, ← ih, ofDigits_eq_foldl, ofDigits_eq_foldl, List.foldl_append]
      rfl

theorem placeValue_digits (n : Nat) : placeValue (digits n) = n := by
  rw [← ofDigits_eq_placeValue, ofDigits_digits]

namespace Number

open Binary64 (IsNearest)

variable {figures : Bytes} {byte : UInt8}

/-- A word with a digit behind it, as long as it stays a word. -/
def push? (word : UInt64) (byte : UInt8) : Option UInt64 :=
  let digit := byte.toUInt64 - 0x30
  if word < 0xCCCCCCCCCCCCCCC ∨ (word = 0xCCCCCCCCCCCCCCC ∧ digit ≤ 7) then
    some (10 * word + digit)
  else none

/-- The word that digits stand for, if it is one. -/
def gather? (figures : Bytes) : Option UInt64 := figures.foldlM push? 0

theorem toNat_digit (h : isDigit byte) :
    (byte.toUInt64 - 0x30).toNat = digitValue byte ∧ digitValue byte ≤ 9 := by
  simp only [isDigit, Bool.and_eq_true, decide_eq_true_eq, UInt8.le_iff_toNat_le,
    UInt8.reduceToNat] at h
  have hle : (0x30 : UInt64) ≤ byte.toUInt64 := UInt64.le_iff_toNat_le.mpr h.1
  rw [UInt64.toNat_sub_of_le _ _ hle, digitValue]
  exact ⟨rfl, Nat.sub_le_sub_right h.2 48⟩

theorem push?_eq (word : UInt64) (h : isDigit byte) :
    push? word byte =
      if 10 * word.toNat + digitValue byte ≤ greatestWord then
        some (UInt64.ofNat (10 * word.toNat + digitValue byte))
      else none := by
  obtain ⟨hdigit, hle⟩ := toNat_digit h
  have hsum : 10 * word + (byte.toUInt64 - 0x30) =
      UInt64.ofNat (10 * word.toNat + digitValue byte) := by
    rw [UInt64.ofNat_add, UInt64.ofNat_mul, UInt64.ofNat_toNat, ← hdigit, UInt64.ofNat_toNat]
    rfl
  simp only [push?, hsum]
  refine ite_congr (propext ?_) (fun _ => rfl) (fun _ => rfl)
  rw [UInt64.lt_iff_toNat_lt, UInt64.le_iff_toNat_le, ← UInt64.toNat_inj, hdigit, greatestWord]
  simp only [UInt64.reduceToNat]
  omega

/-- Digits stay a word up to the greatest one. Once they are beyond it no digit behind them brings
them back. -/
theorem gather?_eq (h : ∀ byte ∈ figures, isDigit byte) :
    gather? figures =
      if placeValue figures ≤ greatestWord then some (UInt64.ofNat (placeValue figures))
      else none := by
  induction figures using List.reverseRecOn with
  | nil => rfl
  | append_singleton figures byte ih =>
      obtain ⟨hfigures, hbyte⟩ := List.forall_mem_append.mp h
      have hstep : gather? (figures ++ [byte]) = (gather? figures).bind (push? · byte) := by
        rw [gather?, List.foldlM_append]
        simp [gather?]
      have hdigit := hbyte byte (List.mem_singleton_self byte)
      rw [hstep, ih hfigures, placeValue_concat]
      split
      · rename_i hword
        rw [Option.bind_some, push?_eq _ hdigit, UInt64.toNat_ofNat_of_lt']
        rw [greatestWord] at hword
        rw [UInt64.size]
        omega
      · rw [if_neg (by omega), Option.bind_none]

theorem ofNumeral_digits (h : ∀ byte ∈ figures, isDigit byte) :
    ofNumeral figures = .ofNat (placeValue figures) := by
  rw [ofNumeral, if_neg (Cursor.not_mem_point_of_digits h), ofDigits_eq_placeValue]

/-- Digits without a point are one token. -/
theorem tokenize_digits (hne : figures ≠ []) (h : ∀ byte ∈ figures, isDigit byte) :
    tokenize figures = .ok [.number (.ofNat (placeValue figures))] := by
  obtain ⟨byte, others, rfl⟩ := List.exists_cons_of_ne_nil hne
  rw [← ofNumeral_digits h]
  refine tokenize_body (.number (fun byte hbyte => isNumeral_of_isDigit (h byte hbyte)) ⟨?_, ?_⟩)
  · exact ⟨byte, List.mem_cons_self, h byte List.mem_cons_self⟩
  · rw [List.count_eq_zero.mpr (Cursor.not_mem_point_of_digits h)]
    exact Nat.zero_le 1

theorem tokenize_digits_of_nat (n : Nat) : tokenize (digits n) = .ok [.number (.ofNat n)] := by
  have htokens := tokenize_digits (digits_ne_nil n) fun _ => isDigit_of_mem_digits
  rwa [placeValue_digits] at htokens

theorem ofNat_of_toInt {n : Nat} {word : Int64} (h : word.toInt = n) : ofNat n = .whole word := by
  have hlt := word.toInt_lt
  have hle : n ≤ greatestWord := by
    rw [greatestWord]
    omega
  rw [ofNat, if_pos hle, ← Int64.toInt_inj.mp ((Int64.toInt_ofNat_of_lt (by omega)).trans h.symm)]

theorem ofDecimal_whole (n : Nat) : Binary64.ofDecimal ⟨n, 0⟩ = Binary64.nearest n 1 := by
  have hnumerator : (⟨n, 0⟩ : Decimal).numerator = n := Nat.mul_one n
  have hdenominator : (⟨n, 0⟩ : Decimal).denominator = 1 := rfl
  rw [Binary64.ofDecimal, hnumerator, hdenominator]

theorem isNearest_whole_iff {n k : Nat} : IsNearest n k ↔ k = Binary64.nearest n 1 := by
  have hvalue : (⟨n, 0⟩ : Decimal).value = n := by
    rw [Decimal.value, zpow_zero, mul_one]
  rw [← hvalue, ← ofDecimal_whole]
  exact Binary64.isNearest_iff

/-- The double that digits without a point stand for. -/
theorem read_digits (hne : figures ≠ []) (h : ∀ byte ∈ figures, isDigit byte) :
    Binary64.read figures =
      Binary64.ofMagnitude false (Binary64.nearest (placeValue figures) 1) := by
  have hdecimal := Decimal.read_whole h Decimal.not_isNumeral_nil
  rw [List.append_nil, Decimal.readExponent_nil, ofDigits_eq_placeValue] at hdecimal
  rw [Binary64.read_of_isNumeral hne fun byte hbyte => isNumeral_of_isDigit (h byte hbyte),
    hdecimal, ofDecimal_whole]

theorem tokenize_text_of_nonneg {word : Int64} (h : 0 ≤ word) :
    tokenize (text (.whole word)) = .ok [.number (.whole word)] := by
  have hnonneg : 0 ≤ word.toInt := Int64.le_iff_toInt_le.mp h
  rw [text, wholeText, if_neg (Int.not_lt.mpr hnonneg), tokenize_digits_of_nat,
    ofNat_of_toInt (Int.natAbs_of_nonneg hnonneg).symm]

theorem tokenize_text_of_neg {word : Int64} (h : word < 0) :
    tokenize (text (.whole word)) =
      .ok [.mark .minus minusSign, .number (.ofNat word.toInt.natAbs)] := by
  have hneg : word.toInt < 0 := Int64.lt_iff_toInt_lt.mp h
  rw [text, wholeText, if_pos hneg]
  exact tokenize_mark (a := []) rfl tokenize_nil (tokenize_digits_of_nat _)

theorem ofNat_neg {word : Int64} (h : word < 0) (hleast : word ≠ Int64.minValue) :
    ofNat word.toInt.natAbs = .whole (-word) := by
  have hneg : word.toInt < 0 := Int64.lt_iff_toInt_lt.mp h
  have hbound := word.le_toInt
  have hnotLeast : word.toInt ≠ -0x8000000000000000 := fun heq => hleast (Int64.toInt_inj.mp heq)
  apply ofNat_of_toInt
  rw [Int64.toInt_neg, Int.bmod_eq_of_le (by omega) (by omega)]
  omega

/-- The magnitude of the least word is the power of two behind the greatest word. -/
theorem ofNat_least :
    ∃ m, ofNat Int64.minValue.toInt.natAbs = .real (Binary64.ofMagnitude false m) ∧
      Binary64.value m = 2 ^ 63 := by
  have hbeyond : ¬Int64.minValue.toInt.natAbs ≤ greatestWord := by decide
  have hnearest : Binary64.nearest Int64.minValue.toInt.natAbs 1 = 0x43E0000000000000 := by
    decide +kernel
  have hunits : Binary64.units 0x43E0000000000000 = 2 ^ 63 * Binary64.unitsInOne := by
    decide +kernel
  refine ⟨_, if_neg hbeyond, ?_⟩
  rw [hnearest, Binary64.value, hunits, Nat.cast_mul,
    mul_div_cancel_right₀ _ Binary64.unitsInOne_pos.ne']
  norm_num

/-- Whole numerals are read exactly. Any digits without a point are one token, which is the word
that they stand for if digits gathered in a word stay one, and otherwise the double nearest to it;
the text of a word is the word again, behind a minus if it is negative, where the magnitude of the
least word is a double. -/
theorem tokenize_reads_wholeNumerals :
    (∀ figures : Bytes, figures ≠ [] → (∀ byte ∈ figures, isDigit byte) →
      (placeValue figures < 2 ^ 63 → ∃ word : Int64, word.toInt = placeValue figures ∧
        gather? figures = some word.toUInt64 ∧
        tokenize figures = .ok [.number (.whole word)]) ∧
      (2 ^ 63 ≤ placeValue figures → gather? figures = none ∧
        tokenize figures = .ok [.number (.real (Binary64.read figures))] ∧
        ∃ m, Binary64.read figures = Binary64.ofMagnitude false m ∧
          ∀ k, IsNearest (placeValue figures) k ↔ k = m)) ∧
    ∀ word : Int64,
      (0 ≤ word → tokenize (text (.whole word)) = .ok [.number (.whole word)]) ∧
      (word < 0 → ∃ magnitude, tokenize (text (.whole word)) =
          .ok [.mark .minus minusSign, .number magnitude] ∧
        (word ≠ Int64.minValue → magnitude = .whole (-word)) ∧
        (word = Int64.minValue → ∃ m, magnitude = .real (Binary64.ofMagnitude false m) ∧
          Binary64.value m = 2 ^ 63)) := by
  refine ⟨fun figures hne h => ?_, fun word => ⟨tokenize_text_of_nonneg, fun hneg => ?_⟩⟩
  · have htokens := tokenize_digits hne h
    have hgather := gather?_eq h
    refine ⟨fun hword => ?_, fun hbeyond => ?_⟩
    · have hle : placeValue figures ≤ greatestWord := Nat.le_of_lt_succ hword
      rw [ofNat, if_pos hle] at htokens
      rw [if_pos hle] at hgather
      exact ⟨_, Int64.toInt_ofNat_of_lt hword, hgather, htokens⟩
    · have hlt : ¬placeValue figures ≤ greatestWord := Nat.not_le.mpr hbeyond
      rw [ofNat, if_neg hlt, ← read_digits hne h] at htokens
      rw [if_neg hlt] at hgather
      exact ⟨hgather, htokens, _, read_digits hne h, fun _ => isNearest_whole_iff⟩
  · refine ⟨_, tokenize_text_of_neg hneg, ofNat_neg hneg, ?_⟩
    rintro rfl
    exact ofNat_least

/-- On either side of the greatest word, with zeros in front. -/
theorem tokenize_reads_wholeNumerals_boundary :
    tokenize (ascii "0009223372036854775807") = .ok [.number (.whole Int64.maxValue)] ∧
    tokenize (ascii "0009223372036854775808") =
      .ok [.number (.real (Binary64.read (ascii "0009223372036854775808")))] ∧
    tokenize (text (.whole 0)) = .ok [.number (.whole 0)] ∧
    tokenize (text (.whole (-5))) = .ok [.mark .minus minusSign, .number (.whole 5)] ∧
    ∃ m, tokenize (text (.whole Int64.minValue)) =
        .ok [.mark .minus minusSign, .number (.real (Binary64.ofMagnitude false m))] ∧
      Binary64.value m = 2 ^ 63 := by
  obtain ⟨hnumerals, htexts⟩ := tokenize_reads_wholeNumerals
  obtain ⟨word, hvalue, -, hgreatest⟩ :=
    (hnumerals (ascii "0009223372036854775807") (by decide) (by decide +kernel)).1
      (by decide +kernel)
  obtain ⟨-, hbeyond, -⟩ :=
    (hnumerals (ascii "0009223372036854775808") (by decide) (by decide +kernel)).2
      (by decide +kernel)
  obtain ⟨five, hfive, hwhole, -⟩ := (htexts (-5)).2 (by decide)
  obtain rfl : five = .whole 5 := hwhole (by decide)
  obtain ⟨magnitude, htokens, -, hleast⟩ := (htexts Int64.minValue).2 (by decide)
  obtain ⟨m, rfl, hm⟩ := hleast rfl
  have hword : word = Int64.maxValue := by
    rw [← Int64.toInt_inj, hvalue]
    decide +kernel
  exact ⟨hword ▸ hgreatest, hbeyond, (htexts 0).1 (by decide), hfive, m, htokens, hm⟩

end Number

end Calculator
