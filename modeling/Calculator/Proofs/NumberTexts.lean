import Calculator.Proofs.NumeralReading
import Calculator.Proofs.TokenBytes

/-!
Numbers told apart by their texts. A finite number is determined by its text: the text of a double
shows a point or an exponent, which that of a whole number never does, and each is read back as the
number it was written for. A document writes `null` for every other number, and a literal that is
not finite is the positive infinity, so literals are determined by their documents.
-/

namespace Calculator

open Json

def numeralBytes : Bytes := ascii "0123456789-.e+E"

theorem mem_numeralBytes_of_isDigit {byte : UInt8} (h : isDigit byte) : byte ∈ numeralBytes := by
  revert h
  revert byte
  decide +kernel

theorem Json.IsNumeral.mem_numeralBytes {text : Bytes} (h : IsNumeral text) :
    ∀ byte ∈ text, byte ∈ numeralBytes := by
  have hdigits {figures : Bytes} (h : ∀ byte ∈ figures, isDigit byte) :
      ∀ byte ∈ figures, byte ∈ numeralBytes :=
    fun byte hbyte => mem_numeralBytes_of_isDigit (h byte hbyte)
  obtain ⟨hsign, hwhole, hfraction, hexponent⟩ := h
  refine List.forall_mem_append.mpr ⟨List.forall_mem_append.mpr ⟨List.forall_mem_append.mpr
    ⟨?_, hdigits hwhole.digit⟩, ?_⟩, ?_⟩
  · rcases hsign with rfl | rfl <;> decide +kernel
  · cases hfraction with
    | absent => exact List.forall_mem_nil _
    | present h => exact List.forall_mem_cons.mpr ⟨by decide +kernel, hdigits h.digit⟩
  · cases hexponent with
    | absent => exact List.forall_mem_nil _
    | present hletter hsign h =>
        refine List.forall_mem_append.mpr ⟨List.forall_mem_cons.mpr ⟨?_, ?_⟩, hdigits h.digit⟩
        · rcases hletter with rfl | rfl <;> decide +kernel
        · rcases hsign with rfl | rfl | rfl <;> decide +kernel

theorem digits_injective : Function.Injective digits :=
  Function.LeftInverse.injective ofDigits_digits

/-- The text of a finite double shows that it is no whole number. -/
theorem Binary64.mark_mem_text {x : Float} (h : isFinite x) :
    point ∈ text x ∨ asciiByte 'e' ∈ text x := by
  rw [text_of_isFinite h]
  rcases markFraction_cases (magnitude x) with ⟨hmark, htext⟩ | ⟨-, htext⟩ <;> rw [htext]
  · exact hmark.imp (List.mem_append_right _) (List.mem_append_right _)
  · exact Or.inl (List.mem_append_right _ (List.mem_append_right _ (by decide)))

namespace Number

theorem wholeText_inj {m n : Int} (h : wholeText m = wholeText n) : m = n := by
  have hsign {k l : Nat} : minusSign :: digits k ≠ digits l := by
    intro h
    have hmem : minusSign ∈ digits l := h ▸ List.mem_cons_self
    exact absurd (isDigit_of_mem_digits hmem) (by decide)
  simp only [wholeText] at h
  split at h <;> split at h
  · have := digits_injective (List.cons_injective h)
    omega
  · exact absurd h hsign
  · exact absurd h.symm hsign
  · have := digits_injective h
    omega

/-- The text of a finite double is not that of a whole number. -/
theorem wholeText_ne {n : Int} {x : Float} (h : Binary64.isFinite x) :
    wholeText n ≠ Binary64.text x := by
  intro heq
  have hwhole : ∀ byte ∈ wholeText n, byte = minusSign ∨ isDigit byte := by
    intro byte hbyte
    simp only [wholeText] at hbyte
    split at hbyte
    · exact (List.mem_cons.mp hbyte).imp_right isDigit_of_mem_digits
    · exact Or.inr (isDigit_of_mem_digits hbyte)
  have hmark := Binary64.mark_mem_text h
  rw [← heq] at hmark
  rcases hmark with hmark | hmark <;> exact absurd (hwhole _ hmark) (by decide)

theorem text_inj {a b : Number} (ha : a.isFinite) (hb : b.isFinite) (h : a.text = b.text) :
    a = b := by
  cases a with
  | whole m =>
      cases b with
      | whole n => rw [Int64.toInt_inj.mp (wholeText_inj h)]
      | real y => exact absurd h (wholeText_ne hb)
  | real x =>
      cases b with
      | whole n => exact absurd h.symm (wholeText_ne ha)
      | real y =>
          have hread := congrArg Binary64.read h
          rw [text, text, Binary64.read_text ha, Binary64.read_text hb] at hread
          rw [hread]

/-- The document of a number is a numeral or `null`. -/
theorem json_of_isFinite {n : Number} (h : n.isFinite) :
    n.json = n.text ∧ ∀ byte ∈ n.json, byte ∈ numeralBytes := by
  have hjson : n.json = n.text := if_pos h
  exact ⟨hjson, hjson ▸ (isNumeral_text h).mem_numeralBytes⟩

theorem json_of_not_isFinite {n : Number} (h : ¬n.isFinite) : n.json = ascii "null" := if_neg h

/-- Documents tell finite numbers apart, and from all others. -/
theorem json_eq_iff {a b : Number} :
    a.json = b.json ↔ a = b ∨ ¬a.isFinite ∧ ¬b.isFinite := by
  have hnull {n m : Number} (hn : n.isFinite) (hm : ¬m.isFinite) : n.json ≠ m.json := by
    intro heq
    have hletter : asciiByte 'n' ∈ n.json := by
      rw [heq, json_of_not_isFinite hm]
      decide
    exact absurd ((json_of_isFinite hn).2 _ hletter) (by decide +kernel)
  constructor
  · intro h
    by_cases ha : a.isFinite <;> by_cases hb : b.isFinite
    · rw [(json_of_isFinite ha).1, (json_of_isFinite hb).1] at h
      exact Or.inl (text_inj ha hb h)
    · exact absurd h (hnull ha hb)
    · exact absurd h.symm (hnull hb ha)
    · exact Or.inr ⟨ha, hb⟩
  · rintro (rfl | ⟨ha, hb⟩)
    · rfl
    · rw [json_of_not_isFinite ha, json_of_not_isFinite hb]

end Number

/-- A literal is a whole number or a double of positive sign that is no nan. -/
def Number.IsLiteral (n : Number) : Prop := ∃ body, (Token.number n).IsWrittenAs body

theorem Number.IsLiteral.cases {n : Number} (h : n.IsLiteral) :
    (∃ value, n = .whole value) ∨
      ∃ m, m ≤ Binary64.infinity ∧ n = .real (Binary64.ofMagnitude false m) := by
  obtain ⟨body, hbody⟩ := h
  cases hbody with
  | number hrun hnumeral =>
      rw [ofNumeral]
      split
      · exact Or.inr ⟨_, Binary64.nearest_le _ _, rfl⟩
      · rw [ofNat]
        split
        · exact Or.inl ⟨_, rfl⟩
        · exact Or.inr ⟨_, Binary64.nearest_le _ _, rfl⟩

/-- The document of a literal determines it, as the only literal that is not finite is the positive
infinity. -/
theorem Number.IsLiteral.json_inj {a b : Number} (ha : a.IsLiteral) (hb : b.IsLiteral)
    (h : a.json = b.json) : a = b := by
  have hinfinite {n : Number} (hn : n.IsLiteral) (hfinite : ¬n.isFinite) :
      n = .real (Binary64.ofMagnitude false Binary64.infinity) := by
    rcases hn.cases with ⟨value, rfl⟩ | ⟨m, hm, rfl⟩
    · exact absurd rfl hfinite
    · have hmagnitude := Binary64.magnitude_ofMagnitude hm false
      simp only [isFinite, Binary64.isFinite, hmagnitude, decide_eq_true_eq, not_lt] at hfinite
      rw [Nat.le_antisymm hm hfinite]
  rcases json_eq_iff.mp h with heq | ⟨hfinite, hfinite'⟩
  · exact heq
  · rw [hinfinite ha hfinite, hinfinite hb hfinite']

/-- Literals whose values are equal are the same, as no literal is nan or a negative zero. -/
theorem Number.IsLiteral.agrees_iff {a b : Number} (ha : a.IsLiteral) (hb : b.IsLiteral) :
    a.agrees b ↔ a = b := by
  rcases ha.cases with ⟨m, rfl⟩ | ⟨m, hm, rfl⟩ <;> rcases hb.cases with ⟨n, rfl⟩ | ⟨n, hn, rfl⟩
  · simp [agrees]
  · simp [agrees]
  · simp [agrees]
  · have hnan {k : Nat} (hk : k ≤ Binary64.infinity) :
        Binary64.isNan (Binary64.ofMagnitude false k) = false := by
      rw [Binary64.isNan, Binary64.magnitude_ofMagnitude hk]
      exact decide_eq_false (Nat.not_lt.mpr hk)
    have hzero {k : Nat} (hk : k ≤ Binary64.infinity) :
        Binary64.isZero (Binary64.ofMagnitude false k) = decide (k = 0) := by
      rw [Binary64.isZero, Binary64.magnitude_ofMagnitude hk]
    simp only [agrees, Binary64.agrees, hnan hm, hnan hn, hzero hm, hzero hn, Bool.not_false,
      Bool.true_and, Bool.or_eq_true, beq_iff_eq, Bool.and_eq_true, decide_eq_true_eq, real.injEq,
      Float.toBits_inj]
    constructor
    · rintro (hsame | ⟨hm0, hn0⟩)
      · exact hsame
      · rw [hm0, hn0]
    · exact Or.inl

end Calculator
