import Calculator.Proofs.ScriptStep
import Mathlib.Data.List.DropRight
import Mathlib.Data.List.SplitBy
import Mathlib.Order.Bounds.Basic

/-!
The lexical language, described without reading: the alphabet, the pieces that a text falls into,
the tokens of the pieces, the texts that are made of tokens, and the places where the others are at
fault. Pieces are maximal runs of digits and points and the single bytes around them. All of this
can be looked at on either side of a seam, a place that no run crosses.
-/

namespace Calculator

def separators : Bytes := [0x09, 0x0A, 0x0B, 0x0C, 0x0D, 0x20]

/-- The bytes that are tokens on their own. -/
def markTable : List (UInt8 × Mark) :=
  [(0x2B, .plus), (0x2D, .minus), (0x2A, .star), (0x2F, .slash), (0x5E, .caret), (0x28, .opening),
    (0x29, .closing)]

def InAlphabet (byte : UInt8) : Prop :=
  byte ∈ separators ∨ (markTable.lookup byte).isSome ∨ isNumeral byte

/-- A text cut into its maximal runs of digits and points and the single bytes around them. -/
def pieces (text : Bytes) : List Bytes := text.splitBy fun a b => isNumeral a && isNumeral b

def numeralRuns (text : Bytes) : List Bytes := (pieces text).filter (·.any isNumeral)

/-- The token of a piece, none for a separator. -/
def Token.ofPiece? : Bytes → Option Token
  | [] => none
  | byte :: rest =>
    if isNumeral byte then some (.number (.ofNumeral (byte :: rest)))
    else (markTable.lookup byte).map (.mark · byte)

def tokensOf (text : Bytes) : List Token := (pieces text).filterMap Token.ofPiece?

/-- A run of digits and points is a numeral when it has a digit and at most one point. -/
def IsNumeralRun (run : Bytes) : Prop := (∃ byte ∈ run, isDigit byte) ∧ run.count point ≤ 1

/-- The texts that are made of tokens and separators. -/
structure IsLexical (text : Bytes) : Prop where
  alphabet : ∀ byte ∈ text, InAlphabet byte
  runs : ∀ run ∈ numeralRuns text, IsNumeralRun run

instance (byte : UInt8) : Decidable (InAlphabet byte) := inferInstanceAs (Decidable (_ ∨ _ ∨ _))

instance (run : Bytes) : Decidable (IsNumeralRun run) :=
  decidable_of_iff (run.any isDigit ∧ run.count point ≤ 1) (and_congr_left' List.any_eq_true)

theorem isLexical_iff {text : Bytes} :
    IsLexical text ↔ text.all (fun byte => InAlphabet byte) ∧
      (numeralRuns text).all fun run => IsNumeralRun run := by
  simp only [List.all_eq_true, decide_eq_true_eq]
  exact ⟨fun h => ⟨h.alphabet, h.runs⟩, fun h => ⟨h.1, h.2⟩⟩

instance (text : Bytes) : Decidable (IsLexical text) := decidable_of_iff _ isLexical_iff.symm

/-- What makes the place between `before` and `behind` a fault: a byte beyond the alphabet, the
second point of a run, or a point that is a run on its own. -/
def FaultBetween (before : Bytes) (byte : UInt8) (behind : Bytes) : Prop :=
  ¬InAlphabet byte ∨
    byte = point ∧ ((before.rtakeWhile isNumeral).count point = 1 ∨
      before.rtakeWhile isNumeral = [] ∧ behind.takeWhile isNumeral = [])

def faults (text : Bytes) : Set Nat :=
  {i | ∃ before byte behind, text = before ++ byte :: behind ∧ before.length = i ∧
    FaultBetween before byte behind}

/-- No run of digits and points crosses the seam between two texts. -/
def Seam (a b : Bytes) : Prop :=
  ∀ x ∈ a.getLast?, ∀ y ∈ b.head?, (isNumeral x && isNumeral y) = false

variable {byte : UInt8}

theorem isBlank_iff : isBlank byte ↔ byte ∈ separators := by
  simp only [isBlank, separators, Bool.or_eq_true, Bool.and_eq_true, beq_iff_eq,
    decide_eq_true_eq, List.mem_cons, List.not_mem_nil, or_false, UInt8.le_iff_toNat_le,
    ← UInt8.toNat_inj]
  simp
  omega

theorem ofByte?_eq_lookup (byte : UInt8) : Mark.ofByte? byte = markTable.lookup byte := by
  simp only [Mark.ofByte?, markTable, List.lookup_cons, List.lookup_nil]
  repeat' split
  all_goals simp_all [asciiByte]

theorem inAlphabet_of_isBlank (h : isBlank byte) : InAlphabet byte :=
  Or.inl (isBlank_iff.mp h)

theorem inAlphabet_of_ofByte? {m : Mark} (h : Mark.ofByte? byte = some m) : InAlphabet byte := by
  rw [ofByte?_eq_lookup] at h
  exact Or.inr (Or.inl (by rw [h, Option.isSome_some]))

theorem inAlphabet_of_isNumeral (h : isNumeral byte) : InAlphabet byte :=
  Or.inr (Or.inr h)

theorem not_inAlphabet (hblank : ¬isBlank byte) (hmark : Mark.ofByte? byte = none)
    (hnumeral : ¬isNumeral byte) : ¬InAlphabet byte := by
  rintro (h | h | h)
  · exact hblank (isBlank_iff.mpr h)
  · rw [← ofByte?_eq_lookup, hmark] at h
    cases h
  · exact hnumeral h

theorem not_isNumeral_of_isBlank (h : isBlank byte) : ¬isNumeral byte := by
  have hall : separators.all fun byte => !isNumeral byte := rfl
  simpa using List.all_eq_true.mp hall byte (isBlank_iff.mp h)

theorem mem_markTable {m : Mark} (h : Mark.ofByte? byte = some m) : (byte, m) ∈ markTable := by
  rw [ofByte?_eq_lookup, List.lookup_eq_some_iff] at h
  obtain ⟨before, behind, htable, -⟩ := h
  simp [htable]

theorem not_isNumeral_of_ofByte? {m : Mark} (h : Mark.ofByte? byte = some m) :
    ¬isNumeral byte := by
  have hall : markTable.all fun entry => !isNumeral entry.1 := rfl
  simpa using List.all_eq_true.mp hall (byte, m) (mem_markTable h)

theorem lookup_eq_none_of_isBlank (h : isBlank byte) : markTable.lookup byte = none := by
  have hall : separators.all fun byte => (markTable.lookup byte).isNone := rfl
  exact Option.isNone_iff_eq_none.mp (List.all_eq_true.mp hall byte (isBlank_iff.mp h))

variable {a b : Bytes}

theorem seam_of_left (h : ∀ byte ∈ a.getLast?, ¬isNumeral byte) : Seam a b := by
  intro x hx y _
  simp [h x hx]

theorem seam_of_right (h : ∀ byte ∈ b.head?, ¬isNumeral byte) : Seam a b := by
  intro x _ y hy
  simp [h y hy]

theorem seam_of_blanks (h : ∀ byte ∈ a, isBlank byte) : Seam a b :=
  seam_of_left fun byte hbyte => not_isNumeral_of_isBlank (h byte (List.mem_of_getLast? hbyte))

theorem pieces_append (h : Seam a b) : pieces (a ++ b) = pieces a ++ pieces b :=
  List.splitBy_append h

theorem numeralRuns_append (h : Seam a b) :
    numeralRuns (a ++ b) = numeralRuns a ++ numeralRuns b := by
  rw [numeralRuns, pieces_append h, List.filter_append, numeralRuns, numeralRuns]

theorem tokensOf_append (h : Seam a b) : tokensOf (a ++ b) = tokensOf a ++ tokensOf b := by
  rw [tokensOf, pieces_append h, List.filterMap_append, tokensOf, tokensOf]

theorem isLexical_append (h : Seam a b) : IsLexical (a ++ b) ↔ IsLexical a ∧ IsLexical b := by
  constructor
  · rintro ⟨halphabet, hruns⟩
    rw [numeralRuns_append h] at hruns
    rw [List.forall_mem_append] at halphabet hruns
    exact ⟨⟨halphabet.1, hruns.1⟩, ⟨halphabet.2, hruns.2⟩⟩
  · rintro ⟨ha, hb⟩
    refine ⟨List.forall_mem_append.mpr ⟨ha.alphabet, hb.alphabet⟩, ?_⟩
    rw [numeralRuns_append h]
    exact List.forall_mem_append.mpr ⟨ha.runs, hb.runs⟩

theorem takeWhile_eq_nil (h : ∀ byte ∈ b.head?, ¬isNumeral byte) : b.takeWhile isNumeral = [] := by
  cases b with
  | nil => rfl
  | cons y b => exact List.takeWhile_cons_of_neg (h y rfl)

/-- The run that goes on behind a byte of a numeral stays on its side of the seam. -/
theorem takeWhile_seam {before behind : Bytes} (h : Seam (before ++ byte :: behind) b)
    (hbyte : isNumeral byte) :
    (behind ++ b).takeWhile isNumeral = behind.takeWhile isNumeral := by
  rw [List.takeWhile_append]
  split
  · rename_i hlength
    have hbehind : behind.takeWhile isNumeral = behind :=
      (List.takeWhile_prefix isNumeral).eq_of_length hlength
    have hall : ∀ x ∈ byte :: behind, isNumeral x :=
      List.forall_mem_cons.mpr ⟨hbyte, List.takeWhile_eq_self_iff.mp hbehind⟩
    have hlast : (byte :: behind).getLast (List.cons_ne_nil _ _) ∈
        (before ++ byte :: behind).getLast? := by
      rw [List.getLast?_append_of_ne_nil _ (List.cons_ne_nil _ _),
        List.getLast?_eq_getLast_of_ne_nil]
      rfl
    rw [takeWhile_eq_nil, List.append_nil, hbehind]
    intro y hy hnumeral
    have hseam := h _ hlast y hy
    rw [hall _ (List.getLast_mem _), hnumeral] at hseam
    cases hseam
  · rfl

theorem Seam.reverse (h : Seam a b) : Seam b.reverse a.reverse := by
  intro x hx y hy
  rw [List.getLast?_reverse] at hx
  rw [List.head?_reverse] at hy
  rw [Bool.and_comm]
  exact h y hy x hx

/-- The run that leads to a byte of a numeral stays on its side of the seam. -/
theorem rtakeWhile_seam {before behind : Bytes} (h : Seam a (before ++ byte :: behind))
    (hbyte : isNumeral byte) :
    (a ++ before).rtakeWhile isNumeral = before.rtakeWhile isNumeral := by
  have hreverse := h.reverse
  rw [List.reverse_append, List.reverse_cons, List.append_assoc, List.singleton_append] at hreverse
  rw [List.rtakeWhile, List.reverse_append, takeWhile_seam hreverse hbyte, List.rtakeWhile]

theorem faultBetween_append_left {before behind : Bytes} (h : Seam a (before ++ byte :: behind)) :
    FaultBetween (a ++ before) byte behind ↔ FaultBetween before byte behind := by
  refine or_congr_right (and_congr_right ?_)
  rintro rfl
  rw [rtakeWhile_seam h (isNumeral_iff.mpr (Or.inr rfl))]

theorem faultBetween_append_right {before behind : Bytes} (h : Seam (before ++ byte :: behind) b) :
    FaultBetween before byte (behind ++ b) ↔ FaultBetween before byte behind := by
  refine or_congr_right (and_congr_right ?_)
  rintro rfl
  rw [takeWhile_seam h (isNumeral_iff.mpr (Or.inr rfl))]

theorem mem_faults_append_left (h : Seam a b) {i : Nat} (hi : i ∈ faults b) :
    a.length + i ∈ faults (a ++ b) := by
  obtain ⟨before, byte, behind, rfl, rfl, hfault⟩ := hi
  exact ⟨a ++ before, byte, behind, by rw [List.append_assoc], List.length_append,
    (faultBetween_append_left h).mpr hfault⟩

/-- A place inside the first of two texts leaves the second one behind it. -/
theorem exists_behind_of_length_lt {before behind : Bytes}
    (h : a ++ b = before ++ byte :: behind)
    (hlength : before.length < a.length) :
    ∃ tail, a = before ++ byte :: tail ∧ behind = tail ++ b := by
  rcases List.append_eq_append_iff.mp h with ⟨middle, rfl, -⟩ | ⟨middle, rfl, hmiddle⟩
  · exact absurd hlength (by simp)
  · cases middle with
    | nil => exact absurd hlength (by simp)
    | cons first tail =>
        rw [List.cons_append, List.cons.injEq] at hmiddle
        obtain ⟨rfl, hbehind⟩ := hmiddle
        exact ⟨tail, rfl, hbehind⟩

theorem mem_faults_append (h : Seam a b) {i : Nat} (hi : i ∈ faults (a ++ b)) :
    i ∈ faults a ∨ ∃ j ∈ faults b, a.length + j = i := by
  obtain ⟨before, byte, behind, htext, rfl, hfault⟩ := hi
  by_cases hlength : before.length < a.length
  · left
    obtain ⟨tail, rfl, rfl⟩ := exists_behind_of_length_lt htext hlength
    exact ⟨before, byte, tail, rfl, rfl, (faultBetween_append_right h).mp hfault⟩
  · right
    obtain ⟨middle, rfl⟩ : a <+: before := List.prefix_of_prefix_length_le (List.prefix_append a b)
      (htext ▸ List.prefix_append before _) (Nat.le_of_not_lt hlength)
    rw [List.append_assoc, List.append_cancel_left_eq] at htext
    subst htext
    exact ⟨middle.length, ⟨middle, byte, behind, rfl, rfl, (faultBetween_append_left h).mp hfault⟩,
      List.length_append.symm⟩

/-- The first fault of a text behind a part without faults. -/
theorem isLeast_faults_append (h : Seam a b) (ha : faults a = ∅) {i : Nat}
    (hi : IsLeast (faults b) i) : IsLeast (faults (a ++ b)) (a.length + i) := by
  refine ⟨mem_faults_append_left h hi.1, ?_⟩
  intro j hj
  rcases mem_faults_append h hj with hleft | ⟨k, hright, rfl⟩
  · rw [ha] at hleft
    cases hleft
  · exact Nat.add_le_add_left (hi.2 hright) a.length

theorem faults_append_eq_empty (h : Seam a b) (ha : faults a = ∅) (hb : faults b = ∅) :
    faults (a ++ b) = ∅ := by
  rw [Set.eq_empty_iff_forall_notMem]
  intro i hi
  rcases mem_faults_append h hi with hleft | ⟨j, hright, -⟩
  · rw [ha] at hleft
    cases hleft
  · rw [hb] at hright
    cases hright

end Calculator
