import Calculator.CommandLine.Session
import Calculator.Proofs.JsonDocument

/-!
What a session puts out where documents are asked for. Quoting leaves no control character in a
document, so a document takes one line, and the session writes this line for the expression it works
out and nothing besides: the banner, the prompt, the usage and the trace never stand in front of it.
-/

namespace Calculator

/-- No control character stands in a quoted text. -/
theorem Quoted.le_of_mem_encode (text : Bytes) : ∀ byte ∈ encode text, 0x20 ≤ byte := by
  have hpiece : ∀ piece ∈ Utf8.characters text, ∀ byte ∈ escape piece, 0x20 ≤ byte := by
    intro piece hmem byte hbyte
    cases Utf8.isPiece_of_mem_characters hmem with
    | stray => exact (isPlain_escape_singleton _ byte hbyte).1
    | sequence h =>
        by_cases hlong : 2 ≤ piece.length
        · have hsame : escape piece = piece := by
            cases h with
            | one => exact absurd hlong (Nat.not_succ_le_self 1)
            | two | three | four => rfl
          exact UInt8.le_trans (by decide) (h.le_of_mem hlong byte (hsame ▸ hbyte))
        · cases h with
          | one => exact (isPlain_escape_singleton _ byte hbyte).1
          | two | three | four => exact absurd (by simp) hlong
  rw [encode, List.forall_mem_append, List.forall_mem_cons, List.forall_mem_singleton]
  refine ⟨⟨by decide, ?_⟩, by decide⟩
  intro byte hbyte
  obtain ⟨piece, hmem, hbyte⟩ := List.mem_flatMap.mp hbyte
  exact hpiece piece hmem byte hbyte

theorem not_mem_newline {text : Bytes} (h : ∀ byte ∈ text, 0x20 ≤ byte) : 0x0A ∉ text :=
  fun hmem => absurd (h 0x0A hmem) (by decide)

theorem Calculation.isPlain_json (c : Calculation) : IsPlain c.json := by
  have htokens : IsPlain (commaSeparated (c.tokens.map Token.json)) :=
    Json.isPlain_commaSeparated (List.forall_mem_map.mpr fun token _ => token.writes_json.plain)
  rw [json, Tree.jsonBefore_eq]
  simp only [isPlain_append]
  exact ⟨⟨⟨by decide, htokens⟩, by decide⟩, c.tree.tree.writes_json.plain,
    ⟨by decide, c.value.writes_json.plain⟩, by decide⟩

theorem Calculation.newline_not_mem_json (c : Calculation) : 0x0A ∉ c.json :=
  not_mem_newline fun byte hbyte => (c.isPlain_json byte hbyte).1

theorem Fault.newline_not_mem_json (fault : Fault) : 0x0A ∉ fault.json := by
  have hopen : IsPlain (ascii "\x7b\"error\":") := by decide
  have hclose : IsPlain (ascii "\x7d") := by decide
  apply not_mem_newline
  rw [json, List.forall_mem_append, List.forall_mem_append]
  exact ⟨⟨fun byte hbyte => (hopen byte hbyte).1, Quoted.le_of_mem_encode _⟩,
    fun byte hbyte => (hclose byte hbyte).1⟩

/-- What a session leaves behind that has worked out an expression for a document: the code that
tells a value from a fault, and on the output the document of it and one line feed at the end. -/
def Outcome.Documents (outcome : Outcome) (expression : Bytes) : Prop :=
  ∃ document, outcome.out = document ++ newline ∧ 0x0A ∉ document ∧
    ((∃ c, calculate expression = .ok c ∧ document = c.json ∧ outcome.code = 0) ∨
      ∃ fault, calculate expression = .error fault ∧ document = fault.json ∧ outcome.code = 1)

theorem Outcome.Documents.out_ne_nil {outcome : Outcome} {expression : Bytes}
    (h : outcome.Documents expression) : outcome.out ≠ [] := by
  obtain ⟨document, hout, -⟩ := h
  rw [hout]
  exact List.append_ne_nil_of_right_ne_nil _ (List.cons_ne_nil _ _)

namespace Options

variable {o p : Options}

theorem documents_evaluate (hjson : o.json) : o.evaluate.Documents o.expression := by
  unfold evaluate
  cases h : calculate o.expression with
  | error fault =>
      exact ⟨fault.json, if_pos hjson, fault.newline_not_mem_json, Or.inr ⟨fault, h, rfl, rfl⟩⟩
  | ok c => exact ⟨c.json, if_pos hjson, c.newline_not_mem_json, Or.inl ⟨c, h, rfl, rfl⟩⟩

/-- The expressions that a session works out: the words of the command line, or without words what
the first line typed stands for. -/
inductive Chooses (o : Options) : List Bytes → Bytes → Prop
  | words {lines : List Bytes} (h : o.interactive = false) : Chooses o lines o.expression
  | answer {line : Bytes} {others : List Bytes} (h : o.interactive = true) :
      Chooses o (line :: others) (chooseExpression line)

theorem Chooses.not_asked {lines : List Bytes} {expression : Bytes}
    (h : o.Chooses lines expression) : ¬(o.interactive ∧ lines = []) := by
  cases h with
  | words hwords => simp [hwords]
  | answer => simp

/-- There is an expression unless one is asked for and no line is typed. -/
theorem asked_or_exists_chooses (o : Options) (lines : List Bytes) :
    (o.interactive ∧ lines = []) ∨ ∃ expression, o.Chooses lines expression := by
  cases hask : o.interactive with
  | false => exact Or.inr ⟨_, .words hask⟩
  | true =>
      cases lines with
      | nil => exact Or.inl ⟨rfl, rfl⟩
      | cons line others => exact Or.inr ⟨_, .answer hask⟩

/-- Where the arguments do not end the program, the expression is what they hold behind the
options, and one is asked for if they hold nothing there. -/
theorem exists_words {args : List Bytes} (h : o.arguments args = (p, .proceed)) :
    ∃ words, words <:+ args ∧ p.expression = joinWords words ∧ p.interactive = words.isEmpty := by
  induction args generalizing o with
  | nil =>
      cases h
      exact ⟨[], List.suffix_rfl, rfl, rfl⟩
  | cons argument others ih =>
      rw [arguments] at h
      split at h
      · cases h
        exact ⟨argument :: others, List.suffix_rfl, rfl, rfl⟩
      · cases h
        exact ⟨others, List.suffix_cons _ _, rfl, rfl⟩
      · split at h
        · obtain ⟨words, hwords, hexpression⟩ := ih h
          exact ⟨words, hwords.trans (List.suffix_cons _ _), hexpression⟩
        · rename_i hstopped
          exact absurd h (hstopped p)

end Options

namespace Session

variable {environment : Option Bytes} {argv lines : List Bytes} {o : Options}

theorem run_of_stop {code : Nat} {message : Bytes}
    (h : ({} : Options).read environment argv = (o, .stop code message)) :
    (run environment argv lines).1 = ⟨code, [], message⟩ := by
  rw [run, start, h]

theorem run_of_words (h : ({} : Options).read environment argv = (o, .proceed))
    (hwords : o.interactive = false) : (run environment argv lines).1 = o.evaluate := by
  simp only [run, start, h, hwords, Bool.false_eq_true, if_false]

theorem run_of_answer (h : ({} : Options).read environment argv = (o, .proceed))
    (hask : o.interactive = true) :
    (run environment argv lines).1 =
      answered o (if o.json then [] else banner) lines.head? := by
  simp only [run, start, h, hask, if_true]
  rfl

/-- In document mode a session writes the document of the expression that was chosen. -/
theorem documents_run {expression : Bytes}
    (h : ({} : Options).read environment argv = (o, .proceed)) (hjson : o.json)
    (hchosen : o.Chooses lines expression) :
    (run environment argv lines).1.Documents expression := by
  cases hchosen with
  | words hwords =>
      rw [run_of_words h hwords]
      exact Options.documents_evaluate hjson
  | @answer line others hask =>
      rw [run_of_answer h hask, if_pos hjson]
      let chosen : Options := { o with expression := chooseExpression line }
      have hdocuments : chosen.evaluate.Documents chosen.expression :=
        Options.documents_evaluate hjson
      exact hdocuments

/-- A session that its arguments end puts out nothing. Where they ask for documents and do not end
it, the words they hold are the expression, and without words one is asked for; the output is empty
just when it is asked for and no line comes, and for the expression that is chosen it is the line of
its document. -/
theorem output_is_document (environment : Option Bytes) (argv lines : List Bytes) :
    (∀ o code message, ({} : Options).read environment argv = (o, .stop code message) →
      (run environment argv lines).1.code = code ∧ (run environment argv lines).1.out = []) ∧
    ∀ o, ({} : Options).read environment argv = (o, .proceed) → o.json →
      (∃ words, words <:+ argv ∧ o.expression = Options.joinWords words ∧
        o.interactive = words.isEmpty) ∧
      ((run environment argv lines).1.out = [] ↔ o.interactive ∧ lines = []) ∧
      ((run environment argv lines).1.out = [] → (run environment argv lines).1.code = 2) ∧
      ∀ expression, o.Chooses lines expression →
        (run environment argv lines).1.Documents expression := by
  refine ⟨?_, ?_⟩
  · intro o code message h
    rw [run_of_stop h]
    exact ⟨rfl, rfl⟩
  · intro o h hjson
    have hwords : ∃ words, words <:+ argv ∧ o.expression = Options.joinWords words ∧
        o.interactive = words.isEmpty := by
      obtain ⟨words, hsuffix, hexpression⟩ := Options.exists_words h
      exact ⟨words, hsuffix.trans (List.drop_suffix 1 argv), hexpression⟩
    refine ⟨hwords, ?_⟩
    rcases o.asked_or_exists_chooses lines with ⟨hask, rfl⟩ | ⟨expression, hchosen⟩
    · have hrun : (run environment argv []).1 = answered o (if o.json then [] else banner) none :=
        run_of_answer h hask
      rw [if_pos hjson] at hrun
      rw [hrun]
      refine ⟨iff_of_true rfl ⟨hask, rfl⟩, fun _ => rfl, ?_⟩
      intro expression hchosen
      exact absurd ⟨hask, rfl⟩ hchosen.not_asked
    · have hout := (documents_run h hjson hchosen).out_ne_nil
      exact ⟨iff_of_false hout hchosen.not_asked, fun hnil => absurd hnil hout,
        fun expression => documents_run h hjson⟩

/-- The document of a fault, for two words behind a cluster of options. -/
theorem output_is_document_cluster :
    ({} : Options).read none [ascii "mathc", ascii "-tj", ascii "1", ascii "+"] =
        (⟨true, true, false, ascii "1 +"⟩, .proceed) ∧
      (run none [ascii "mathc", ascii "-tj", ascii "1", ascii "+"] []).1.Documents
        (ascii "1 +") := by
  have hread : ({} : Options).read none [ascii "mathc", ascii "-tj", ascii "1", ascii "+"] =
      (⟨true, true, false, ascii "1 +"⟩, .proceed) := by decide +kernel
  exact ⟨hread, ((output_is_document none _ []).2 _ hread rfl).2.2.2 _ (.words rfl)⟩

end Session

end Calculator
