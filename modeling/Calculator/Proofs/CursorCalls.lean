import Calculator.Proofs.TokenBytes
import Mathlib.Order.Monotone.Basic

/-!
One cursor asked again and again, whatever it answered before. Each call passes blanks and then the
bytes of what it finds; a call that passes no such bytes found the end of the text or a character of
no token, and every later call answers the same. So the places of the calls never move back, and a
text is used up to its end or to such a character within one call more than it has bytes.
-/

namespace Calculator

/-- The blanks that a call at a cursor passes and the body behind them, which holds what it found. A
call with an empty body is at a standstill. -/
structure Step.Passes (c : Cursor) (blanks body : Bytes) (step : Step) : Prop where
  rest_eq : c.rest = blanks ++ (body ++ step.after.rest)
  start_eq : step.start = c.offset + blanks.length
  offset_eq : step.after.offset = step.start + body.length
  blank : ∀ byte ∈ blanks, isBlank byte
  solid : body ≠ [] → ∃ byte ∈ body, ¬isBlank byte
  spelled : ∀ token, step.result = .ok token → token = .endOfInput ∨ token.IsWrittenAs body
  faulty : ∀ fault, step.result = .error fault → ∃ read character left,
    body ++ step.after.rest = read ++ (character ++ left) ∧ character ≠ [] ∧
      fault = .lexical character (step.start + read.length)
  still : body = [] → step.after.next = step ∧
    (step.result = .ok .endOfInput ∧ step.after.rest = [] ∨
      ∃ character, step.result = .error (.lexical character step.start))

namespace Cursor

theorem firstCharacter_ne_nil (byte : UInt8) (rest : Bytes) :
    Utf8.firstCharacter (byte :: rest) ≠ [] := by
  simp [Utf8.firstCharacter, Utf8.characterLength]

/-- A run of digits and points with at least one of them is no blank. -/
theorem exists_not_isBlank {run : Bytes} (hrun : ∀ byte ∈ run, isNumeral byte) (hne : run ≠ []) :
    ∃ byte ∈ run, ¬isBlank byte := by
  obtain ⟨byte, hbyte⟩ := List.exists_mem_of_ne_nil run hne
  exact ⟨byte, hbyte, not_isBlank_of_isNumeral (hrun byte hbyte)⟩

theorem Finds.exists_passes {c : Cursor} {step : Step} (h : Finds c step) :
    ∃ blanks body, step.Passes c blanks body := by
  cases h with
  | @ending blanks offset hblanks =>
      refine ⟨blanks, [], ?_, rfl, rfl, hblanks, absurd rfl, ?_, ?_, ?_⟩
      · rw [List.append_nil, List.append_nil]
      · rintro token ⟨⟩
        exact Or.inl rfl
      · rintro fault ⟨⟩
      · exact fun _ => ⟨(Finds.ending (List.forall_mem_nil _)).next_eq, Or.inl ⟨rfl, rfl⟩⟩
  | @mark blanks rest byte m offset hblanks hmark =>
      refine ⟨blanks, [byte], rfl, rfl, rfl, hblanks, ?_, ?_, ?_, ?_⟩
      · exact fun _ => ⟨byte, List.mem_singleton_self byte, not_isBlank_of_ofByte? hmark⟩
      · rintro token ⟨⟩
        exact Or.inr (.mark hmark)
      · rintro fault ⟨⟩
      · exact fun hnil => absurd hnil (List.cons_ne_nil _ _)
  | @numeral blanks run rest offset hblanks hrun hrest hdigit hpoint =>
      have hwritten : Token.IsWrittenAs (.number (.ofNumeral run)) run :=
        .number hrun ⟨hdigit, hpoint⟩
      refine ⟨blanks, run, rfl, rfl, rfl, hblanks, exists_not_isBlank hrun, ?_, ?_, ?_⟩
      · rintro token ⟨⟩
        exact Or.inr hwritten
      · rintro fault ⟨⟩
      · exact fun hnil => absurd hnil hwritten.ne_nil
  | @secondPoint blanks run rest offset hblanks hrun hpoint =>
      refine ⟨blanks, run, rfl, rfl, rfl, hblanks, exists_not_isBlank hrun, ?_, ?_, ?_⟩
      · rintro token ⟨⟩
      · rintro fault ⟨⟩
        exact ⟨run, [point], rest, rfl, List.cons_ne_nil _ _, rfl⟩
      · rintro rfl
        cases hpoint
  | @lonePoint blanks rest offset hblanks hrest =>
      refine ⟨blanks, [point], rfl, rfl, rfl, hblanks, ?_, ?_, ?_, ?_⟩
      · exact exists_not_isBlank (List.forall_mem_singleton.mpr (by decide))
      · rintro token ⟨⟩
      · rintro fault ⟨⟩
        exact ⟨[], [point], rest, rfl, List.cons_ne_nil _ _, rfl⟩
      · exact fun hnil => absurd hnil (List.cons_ne_nil _ _)
  | @stranger blanks rest byte offset hblanks hblank hmark hnumeral =>
      refine ⟨blanks, [], rfl, rfl, rfl, hblanks, absurd rfl, ?_, ?_, ?_⟩
      · rintro token ⟨⟩
      · rintro fault ⟨⟩
        exact ⟨[], Utf8.firstCharacter (byte :: rest), _, (List.take_append_drop _ _).symm,
          firstCharacter_ne_nil byte rest, rfl⟩
      · exact fun _ => ⟨(Finds.stranger (List.forall_mem_nil _) hblank hmark hnumeral).next_eq,
          Or.inr ⟨_, rfl⟩⟩

end Cursor

/-! ### Calls in a text -/

def Cursor.IsIn (c : Cursor) (text : Bytes) : Prop :=
  ∃ front, text = front ++ c.rest ∧ c.offset = front.length

/-- What holds of a call in a text that is made at the offset `before`: it passes blanks only up to
its start and the bytes of its token behind it, and the character of its fault stands at the offset
of the fault, in the text and not in front of its start. -/
structure Step.KeepsOrder (text : Bytes) (before : Nat) (step : Step) : Prop where
  before_le : before ≤ step.start
  start_le : step.start ≤ step.after.offset
  offset_le : step.after.offset ≤ text.length
  blank : ∀ byte ∈ text.extract before step.start, isBlank byte
  spelled : ∀ token, step.result = .ok token → token ≠ .endOfInput →
    token.IsWrittenAs (text.extract step.start step.after.offset) ∧ step.start < step.after.offset
  faulty : ∀ fault, step.result = .error fault → ∃ character offset,
    fault = .lexical character offset ∧ step.start ≤ offset ∧ offset < text.length ∧
      character ≠ [] ∧ character <+: text.drop offset

/-- What holds of a call at a standstill: it found the end of the text, or a character of no token
that it left where it is. -/
def Step.StandsStill (text : Bytes) (step : Step) : Prop :=
  (step.result = .ok .endOfInput ∧ step.start = text.length ∨
    ∃ character, step.result = .error (.lexical character step.start) ∧
      step.start < text.length) ∧
    step.after.offset = step.start

section
variable {c : Cursor} {text blanks body : Bytes} {step : Step}

theorem extract_part (front part rest : Bytes) :
    (front ++ (part ++ rest)).extract front.length (front.length + part.length) = part := by
  rw [List.extract_eq_take_drop, List.drop_left, Nat.add_sub_cancel_left, List.take_left]

namespace Step.Passes

/-- A text around a call in it. -/
theorem exists_front (h : step.Passes c blanks body) (hc : c.IsIn text) :
    ∃ front, text = front ++ (blanks ++ (body ++ step.after.rest)) ∧ c.offset = front.length ∧
      step.start = front.length + blanks.length ∧
      step.after.offset = front.length + blanks.length + body.length := by
  obtain ⟨front, htext, hoffset⟩ := hc
  refine ⟨front, h.rest_eq ▸ htext, hoffset, ?_, ?_⟩
  · rw [h.start_eq, hoffset]
  · rw [h.offset_eq, h.start_eq, hoffset]

theorem isIn (h : step.Passes c blanks body) (hc : c.IsIn text) : step.after.IsIn text := by
  obtain ⟨front, htext, -, -, hafter⟩ := h.exists_front hc
  refine ⟨front ++ blanks ++ body, ?_, ?_⟩
  · rw [htext, List.append_assoc, List.append_assoc]
  · rw [hafter, List.length_append, List.length_append]

theorem keepsOrder (h : step.Passes c blanks body) (hc : c.IsIn text) :
    step.KeepsOrder text c.offset := by
  obtain ⟨front, htext, hoffset, hstart, hafter⟩ := h.exists_front hc
  have hlength : text.length =
      front.length + blanks.length + body.length + step.after.rest.length := by
    rw [htext, List.length_append, List.length_append, List.length_append]
    omega
  have hfront : (front ++ blanks).length = step.start := by rw [List.length_append, hstart]
  have htext' : text = (front ++ blanks) ++ (body ++ step.after.rest) := by
    rw [htext, List.append_assoc]
  refine ⟨by omega, by omega, by omega, ?_, ?_, ?_⟩
  · have hextract : text.extract c.offset step.start = blanks := by
      rw [htext, hoffset, hstart, extract_part]
    rw [hextract]
    exact h.blank
  · intro token htoken hend
    have hwritten := (h.spelled token htoken).resolve_left hend
    have hextract : text.extract step.start step.after.offset = body := by
      rw [h.offset_eq, ← hfront, htext', extract_part]
    have hpos := List.length_pos_iff.mpr hwritten.ne_nil
    rw [hextract]
    exact ⟨hwritten, by omega⟩
  · intro fault hfault
    obtain ⟨read, character, left, hread, hne, rfl⟩ := h.faulty fault hfault
    have hplace : text = (front ++ blanks ++ read) ++ (character ++ left) := by
      rw [htext', hread, ← List.append_assoc]
    have hpos := List.length_pos_iff.mpr hne
    have hat : (front ++ blanks ++ read).length = step.start + read.length := by
      rw [List.length_append, hfront]
    refine ⟨character, _, rfl, Nat.le_add_right _ _, ?_, hne, ?_⟩
    · rw [hplace, List.length_append, hat, List.length_append]
      omega
    · rw [hplace, ← hat, List.drop_left]
      exact List.prefix_append _ _

/-- A call passes a byte that is no blank, or it is at a standstill. -/
theorem progress (h : step.Passes c blanks body) (hc : c.IsIn text) :
    (∃ byte ∈ text.extract c.offset step.after.offset, ¬isBlank byte) ∨
      step.StandsStill text ∧ step.after.next = step := by
  obtain ⟨front, htext, hoffset, hstart, hafter⟩ := h.exists_front hc
  by_cases hbody : body = []
  · right
    subst hbody
    obtain ⟨hnext, hresult⟩ := h.still rfl
    have hstill : step.after.offset = step.start := h.offset_eq
    refine ⟨⟨?_, hstill⟩, hnext⟩
    rcases hresult with ⟨hend, hrest⟩ | ⟨character, hfault⟩
    · refine Or.inl ⟨hend, ?_⟩
      rw [htext, hrest, hstart, List.append_nil, List.append_nil, List.length_append]
    · obtain ⟨_, offset, hlexical, -, hlt, -⟩ := (h.keepsOrder hc).faulty _ hfault
      cases hlexical
      exact Or.inr ⟨character, hfault, hlt⟩
  · left
    obtain ⟨byte, hbyte, hblank⟩ := h.solid hbody
    have hextract : text.extract c.offset step.after.offset = blanks ++ body := by
      rw [htext, hoffset, hafter, Nat.add_assoc, ← List.length_append, ← List.append_assoc blanks,
        extract_part]
    exact ⟨byte, hextract ▸ List.mem_append_right blanks hbyte, hblank⟩

end Step.Passes

end

namespace Cursor

def afterCalls (text : Bytes) : (count : Nat) → Cursor
  | 0 => .ofText text
  | count + 1 => (afterCalls text count).next.after

/-- The answer of the call that comes after `count` others. -/
def call (text : Bytes) (count : Nat) : Step := (afterCalls text count).next

variable {text : Bytes} {m n : Nat}

theorem isIn_afterCalls (text : Bytes) (count : Nat) : (afterCalls text count).IsIn text := by
  induction count with
  | zero => exact ⟨[], rfl, rfl⟩
  | succ count ih =>
      obtain ⟨blanks, body, hpasses⟩ := (finds_next (afterCalls text count)).exists_passes
      exact hpasses.isIn ih

theorem keepsOrder_call (text : Bytes) (count : Nat) :
    (call text count).KeepsOrder text (afterCalls text count).offset := by
  obtain ⟨blanks, body, hpasses⟩ := (finds_next (afterCalls text count)).exists_passes
  exact hpasses.keepsOrder (isIn_afterCalls text count)

/-- A step that its cursor answers again is answered by all later calls. -/
theorem call_eq_of_still (hstill : (call text n).after.next = call text n) (hle : n ≤ m) :
    call text m = call text n := by
  induction m, hle using Nat.le_induction with
  | base => rfl
  | succ m hle ih =>
      change (call text m).after.next = call text n
      rw [ih, hstill]

theorem progress_call (text : Bytes) (count : Nat) :
    (∃ byte ∈ text.extract (afterCalls text count).offset (call text count).after.offset,
        ¬isBlank byte) ∨
      (call text count).StandsStill text ∧ ∀ m, count ≤ m → call text m = call text count := by
  obtain ⟨blanks, body, hpasses⟩ := (finds_next (afterCalls text count)).exists_passes
  rcases hpasses.progress (isIn_afterCalls text count) with hbyte | ⟨hstands, hnext⟩
  · exact Or.inl hbyte
  · exact Or.inr ⟨hstands, fun m hle => call_eq_of_still hnext hle⟩

/-- As long as each call passed a byte that is no blank, the cursor is as far on as there were
calls. -/
theorem le_offset_afterCalls (hpassed : ∀ m < n,
    ∃ byte ∈ text.extract (afterCalls text m).offset (call text m).after.offset, ¬isBlank byte) :
    n ≤ (afterCalls text n).offset := by
  induction n with
  | zero => exact Nat.zero_le _
  | succ n ih =>
      have hbefore := ih fun m hm => hpassed m (Nat.lt_succ_of_lt hm)
      obtain ⟨byte, hbyte, -⟩ := hpassed n (Nat.lt_succ_self n)
      have hlength := List.length_pos_iff.mpr (List.ne_nil_of_mem hbyte)
      rw [List.extract_eq_take_drop, List.length_take] at hlength
      change n + 1 ≤ (call text n).after.offset
      omega

theorem exists_standsStill (text : Bytes) : ∃ n ≤ text.length,
    (call text n).StandsStill text ∧ ∀ m, n ≤ m → call text m = call text n := by
  by_contra hnone
  have hbeyond : text.length + 1 ≤ (afterCalls text (text.length + 1)).offset := by
    apply le_offset_afterCalls
    intro m hm
    rcases progress_call text m with hpassed | hstill
    · exact hpassed
    · exact absurd ⟨m, Nat.le_of_lt_succ hm, hstill⟩ hnone
  have hinside := (keepsOrder_call text text.length).offset_le
  exact absurd (hbeyond.trans hinside) (Nat.not_succ_le_self _)

/-- The calls of one cursor, faults and the end of the text notwithstanding. Every call keeps the
order of the text, and neither the starts nor the offsets behind them move back from call to call.
Each call passes a byte that is no blank, or is at a standstill that all later calls repeat; one of
the first calls, one more than the text has bytes, is at such a standstill. -/
theorem calls_keep_order (text : Bytes) :
    (∀ n, (call text n).KeepsOrder text (afterCalls text n).offset) ∧
      Monotone (fun n => (call text n).start) ∧ Monotone (fun n => (call text n).after.offset) ∧
      (∀ n, (∃ byte ∈ text.extract (afterCalls text n).offset (call text n).after.offset,
          ¬isBlank byte) ∨
        (call text n).StandsStill text ∧ ∀ m, n ≤ m → call text m = call text n) ∧
      ∃ n ≤ text.length, (call text n).StandsStill text ∧
        ∀ m, n ≤ m → call text m = call text n := by
  have horder (n : Nat) := keepsOrder_call text n
  refine ⟨horder, ?_, ?_, progress_call text, exists_standsStill text⟩
  · exact monotone_nat_of_le_succ fun n => (horder n).start_le.trans (horder (n + 1)).before_le
  · exact monotone_nat_of_le_succ fun n =>
      (horder (n + 1)).before_le.trans (horder (n + 1)).start_le

/-- The second point is left where it is and is read as a point of its own by the next call. -/
theorem calls_secondPoint :
    (call (ascii " 1.2.") 0).result = .error (.lexical [point] 4) ∧
      (∃ character offset, Fault.lexical [point] 4 = .lexical character offset ∧
        (call (ascii " 1.2.") 0).start ≤ offset ∧ offset < 5 ∧ character ≠ [] ∧
          character <+: (ascii " 1.2.").drop offset) ∧
      (call (ascii " 1.2.") 0).start ≤ (call (ascii " 1.2.") 1).start := by
  obtain ⟨horder, hstart, -⟩ := calls_keep_order (ascii " 1.2.")
  have hresult : (call (ascii " 1.2.") 0).result = .error (.lexical [point] 4) := by
    decide +kernel
  exact ⟨hresult, (horder 0).faulty _ hresult, hstart (Nat.zero_le 1)⟩

end Cursor

end Calculator
