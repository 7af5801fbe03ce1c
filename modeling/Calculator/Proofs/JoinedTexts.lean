import Calculator.Proofs.Answer
import Calculator.Proofs.CharacterCut
import Calculator.Proofs.ScriptAppend

/-!
Texts one behind the other, faults included. A fault in the first of two texts stays what it is
whatever stands behind it, as long as no run and no character goes on there. A first text without
faults was put in front of another one before (`tokenize_append_eq`), so a text that is put together
answers what its parts answer.
-/

namespace Calculator

open Utf8 (firstCharacter isContinuation)

variable {a b : Bytes}

/-- Neither a run of digits and points nor a character goes on at the start of `b`. -/
def StartsAnew (b : Bytes) : Prop := ∀ byte ∈ b.head?, ¬isNumeral byte ∧ ¬isContinuation byte

theorem startsAnew_of_isBlank {byte : UInt8} (h : isBlank byte) (rest : Bytes) :
    StartsAnew (byte :: rest) := by
  have hall : separators.all fun byte => !isContinuation byte := rfl
  rintro _ ⟨⟩
  refine ⟨not_isNumeral_of_isBlank h, ?_⟩
  simpa using List.all_eq_true.mp hall byte (isBlank_iff.mp h)

theorem StartsAnew.seam (h : StartsAnew b) (a : Bytes) : Seam a b :=
  seam_of_right fun byte hbyte => (h byte hbyte).1

/-- The first character of a text does not reach into what starts anew behind it. -/
theorem Utf8.firstCharacter_cons_append (byte : UInt8) (a : Bytes)
    (hb : ∀ x ∈ b.head?, ¬isContinuation x) :
    firstCharacter (byte :: (a ++ b)) = firstCharacter (byte :: a) := by
  by_cases h : sequenceLength (byte :: a) = 0
  · rw [firstCharacter_stray h, firstCharacter_stray (sequenceLength_append_eq_zero h hb)]
  · obtain ⟨piece, tail, hpiece, htext⟩ := exists_sequence h
    rw [← List.cons_append, htext, List.append_assoc, firstCharacter_append hpiece,
      firstCharacter_append hpiece]

theorem Cursor.fault_append {c : Cursor} {fault : Fault} (h : c.next.result = .error fault)
    (hb : StartsAnew b) : (⟨c.rest ++ b, c.offset⟩ : Cursor).next.result = .error fault := by
  have hfinds := finds_next c
  generalize c.next = step at hfinds h
  cases hfinds with
  | ending | mark | numeral => cases h
  | secondPoint hblanks hrun hpoint =>
      rw [List.append_assoc, List.append_assoc, List.cons_append]
      exact (congrArg Step.result (Finds.secondPoint hblanks hrun hpoint).next_eq).trans h
  | @lonePoint blanks rest offset hblanks hrest =>
      have hrest : ∀ byte ∈ (rest ++ b).head?, ¬isNumeral byte := by
        cases rest with
        | nil => exact fun byte hbyte => (hb byte hbyte).1
        | cons => exact hrest
      rw [List.append_assoc, List.cons_append]
      exact (congrArg Step.result (Finds.lonePoint hblanks hrest).next_eq).trans h
  | stranger hblanks hblank hmark hnumeral =>
      rw [← Utf8.firstCharacter_cons_append _ _ fun x hx => (hb x hx).2] at h
      rw [List.append_assoc, List.cons_append]
      exact (congrArg Step.result (Finds.stranger hblanks hblank hmark hnumeral).next_eq).trans h

/-- Reading that stops at a fault does not come to what starts anew behind the text. -/
theorem Script.behind_append_of_fault {c : Cursor} {fault : Fault}
    (h : (behind c).ending = .error fault) (hb : StartsAnew b) :
    behind ⟨c.rest ++ b, c.offset⟩ = behind c := by
  induction c using parts_induction with
  | fault c found hfound => exact behind_of_fault (Cursor.fault_append hfound hb)
  | ending => cases h
  | token blanks body rest offset token hblanks hbody hseam ih =>
      have hbehind : Seam body (rest ++ b) := hseam.append_right fun _ => hb.seam body
      rw [List.append_assoc, List.append_assoc, behind_token hblanks hbody hbehind, ih h]

/-- A text with a fault in front of one that starts anew. -/
theorem tokenize_append_of_fault {fault : Fault} (ha : tokenize a = .error fault)
    (hb : StartsAnew b) : tokenize (a ++ b) = .error fault := by
  have htokens := congrArg Script.tokens
    (Script.behind_append_of_fault (c := .ofText a) (tokenize_eq_error_iff.mp ha) hb)
  exact htokens.trans ha

/-- Reading tokens is a homomorphism. With a separator between two texts each of them answers what
it answers alone, the first fault counting; without one this is still so where the first text has no
fault and no run of digits and points crosses the seam. -/
theorem tokenize_joined (a b : Bytes) :
    (∀ byte ∈ separators,
      tokenize (a ++ byte :: b) = joined (a.length + 1) (tokenize a) (tokenize b)) ∧
    ∀ s, tokenize a = .ok s → Seam a b →
      tokenize (a ++ b) = joined a.length (tokenize a) (tokenize b) := by
  refine ⟨?_, fun s ha hseam => ha ▸ tokenize_append_eq hseam ha⟩
  intro byte hbyte
  have hblank : isBlank byte := isBlank_iff.mpr hbyte
  have hanew : StartsAnew (byte :: b) := startsAnew_of_isBlank hblank b
  cases ha : tokenize a with
  | error fault => exact tokenize_append_of_fault ha hanew
  | ok s =>
      have hblanks : ∀ x ∈ [byte], isBlank x := List.forall_mem_singleton.mpr hblank
      have hfront : tokenize (a ++ [byte]) = .ok s := by
        have htokens := tokenize_append (hanew.seam a).of_append_right ha (tokenize_blanks hblanks)
        rwa [List.append_nil] at htokens
      have hseam : Seam (a ++ [byte]) b :=
        (seam_of_blanks hblanks).append_left (List.cons_ne_nil byte []) a
      have hjoined := tokenize_append_eq hseam hfront
      rwa [List.append_assoc, List.singleton_append, List.length_append, List.length_singleton]
        at hjoined

/-- A character that breaks off in front of a separator does not go on behind it, and the fault of a
second text is found as far behind a first one as that is long. -/
theorem tokenize_joined_brokenOff :
    tokenize ([0x31, 0xE2, 0x82] ++ 0x20 :: [0xAC]) = .error (.lexical [0xE2] 1) ∧
      (∃ s, tokenize (ascii "2.)") = .ok s) ∧ Seam (ascii "2.)") (ascii "1..") ∧
      tokenize (ascii "2.)" ++ ascii "1..") = .error (.lexical [point] 5) := by
  have hfirst : tokenize [0x31, 0xE2, 0x82] = .error (.lexical [0xE2] 1) := by decide +kernel
  have htokens : tokenize (ascii "2.)") = .ok [.number (.ofDecimal ⟨2, 0⟩), .mark .closing 0x29] :=
    eq_ok_of_toOption (by decide +kernel)
  have hsecond : tokenize (ascii "1..") = .error (.lexical [point] 2) := by decide +kernel
  have hseam : Seam (ascii "2.)") (ascii "1..") := by
    apply seam_of_left
    rintro _ ⟨⟩
    decide
  refine ⟨?_, ⟨_, htokens⟩, hseam, ?_⟩
  · rw [(tokenize_joined _ _).1 0x20 (by decide), hfirst]
    rfl
  · rw [(tokenize_joined _ _).2 _ htokens hseam, htokens, hsecond]
    rfl

end Calculator
