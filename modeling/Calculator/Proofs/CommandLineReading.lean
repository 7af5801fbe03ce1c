import Calculator.Proofs.OptionScanner

/-!
What command lines do to the options. Requests come into force one after the other up to the first
call for help or unknown option, which ends the program with the expression and the prompt as they
were. Without one the words are joined to the expression, and an expression is asked for if there
are none.
-/

namespace Calculator

open Argument

/-- The requests that end the program, with the code and the message. -/
inductive Request.Ends : Request → Nat → Bytes → Prop
  | help : Ends (.switch .help) 0 usage
  | unknown (name : Bytes) :
      Ends (.unknown name) 2 (ascii "mathc: unknown option '" ++ name ++ ascii "'\n" ++ usage)

/-- The requests after which the program goes on. -/
def Request.GoesOn (r : Request) : Prop := ∀ code message, ¬r.Ends code message

namespace Options

variable {o : Options} {requests : List Request} {words args : List Bytes}

/-- The options that are in force by the environment and after requests that go on. -/
def having (o : Options) (environment : Option Bytes) (requests : List Request) : Options :=
  { o with
    json := o.json || decide (.switch .json ∈ requests)
    trace := o.trace || tracesByDefault environment || decide (.switch .trace ∈ requests) }

/-- What a command line does that divides into requests and words. -/
inductive Reads (o : Options) (environment : Option Bytes) (requests : List Request)
    (words : List Bytes) : Options × Verdict → Prop
  | words (h : ∀ r ∈ requests, r.GoesOn) :
      Reads o environment requests words
        ({ o.having environment requests with
            interactive := words.isEmpty
            expression := [0x20].intercalate (words.dropWhile List.isEmpty) }, .proceed)
  | ended {before after : List Request} {r : Request} {code : Nat} {message : Bytes}
      (hrequests : requests = before ++ r :: after) (hbefore : ∀ q ∈ before, q.GoesOn)
      (h : r.Ends code message) :
      Reads o environment requests words (o.having environment before, .stop code message)

theorem intercalate_cons (word : Bytes) (words : List Bytes) :
    [0x20].intercalate (word :: words) = word ++ words.flatMap (0x20 :: ·) := by
  induction words generalizing word with
  | nil => simp
  | cons next words ih => simp [List.intercalate_cons_cons, ih]

theorem foldl_join (text : Bytes) (hne : text ≠ []) (words : List Bytes) :
    words.foldl (fun text word => if text = [] then word else text ++ 0x20 :: word) text =
      text ++ words.flatMap (0x20 :: ·) := by
  induction words generalizing text with
  | nil => simp
  | cons word words ih =>
      rw [List.foldl_cons, if_neg hne, ih _ (List.append_ne_nil_of_left_ne_nil hne _),
        List.flatMap_cons, List.append_assoc]

/-- Empty words in front leave no space behind. -/
theorem joinWords_eq (words : List Bytes) :
    joinWords words = [0x20].intercalate (words.dropWhile List.isEmpty) := by
  induction words with
  | nil => rfl
  | cons word words ih =>
      rw [joinWords, List.foldl_cons, if_pos rfl, List.dropWhile_cons]
      by_cases hword : word = []
      · subst hword
        exact ih
      · rw [foldl_join word hword, if_neg (by simpa using hword), intercalate_cons]

theorem requests_append (o : Options) (before later : List Request) :
    o.requests (before ++ later) = follow (o.requests before) (·.requests later) := by
  induction before generalizing o with
  | nil => rfl
  | cons first before ih =>
      rw [List.cons_append, requests_cons, requests_cons, follow_assoc]
      exact congrArg _ (funext ih)

theorem request_of_ends {r : Request} {code : Nat} {message : Bytes} (h : r.Ends code message)
    (o : Options) : o.request r = (o, .stop code message) := by
  cases h <;> rfl

/-- Requests that go on set the two modes, each as soon as it is among them. -/
theorem requests_of_goesOn (h : ∀ r ∈ requests, r.GoesOn) (o : Options) :
    o.requests requests =
      ({ o with
          json := o.json || decide (.switch .json ∈ requests)
          trace := o.trace || decide (.switch .trace ∈ requests) }, .proceed) := by
  induction requests generalizing o with
  | nil => simp [Options.requests]
  | cons first others ih =>
      rw [List.forall_mem_cons] at h
      have hothers := ih h.2
      cases first with
      | unknown name => exact absurd (.unknown name) (h.1 _ _)
      | switch s =>
          cases s with
          | help => exact absurd .help (h.1 _ _)
          | json => simp [requests_cons, request, follow, hothers]
          | trace => simp [requests_cons, request, follow, hothers]

theorem goOn_or_exists_end (requests : List Request) :
    (∀ r ∈ requests, r.GoesOn) ∨ ∃ before r after code message,
      requests = before ++ r :: after ∧ (∀ q ∈ before, q.GoesOn) ∧ r.Ends code message := by
  induction requests with
  | nil => exact Or.inl (List.forall_mem_nil _)
  | cons first others ih =>
      by_cases hfirst : first.GoesOn
      · rcases ih with h | ⟨before, r, after, code, message, rfl, hbefore, hend⟩
        · exact Or.inl (List.forall_mem_cons.mpr ⟨hfirst, h⟩)
        · exact Or.inr ⟨first :: before, r, after, code, message, rfl,
            List.forall_mem_cons.mpr ⟨hfirst, hbefore⟩, hend⟩
      · simp only [Request.GoesOn, not_forall, not_not] at hfirst
        obtain ⟨code, message, hend⟩ := hfirst
        exact Or.inr ⟨[], first, others, code, message, rfl, List.forall_mem_nil _, hend⟩

theorem arguments_of_divides (h : Divides args requests words) (o : Options) :
    o.arguments args = follow (o.requests requests) fun p => (p.takeWords words, .proceed) := by
  induction h generalizing o with
  | nothing => rfl
  | word others h =>
      rw [arguments, ofBytes_operand h]
      rfl
  | terminator => rfl
  | options h hothers ih =>
      rw [arguments_options (ofBytes_of_asks h), requests_append, follow_assoc]
      exact congrArg _ (funext ih)

theorem exists_reads (o : Options) (environment : Option Bytes) (requests : List Request)
    (words : List Bytes) : ∃ result, o.Reads environment requests words result := by
  rcases goOn_or_exists_end requests with
    hgoes | ⟨before, r, after, code, message, rfl, hbefore, hend⟩
  · exact ⟨_, .words hgoes⟩
  · exact ⟨_, .ended rfl hbefore hend⟩

theorem Reads.eq_read {environment : Option Bytes} {argv : List Bytes} {result : Options × Verdict}
    (hreads : o.Reads environment requests words result)
    (h : Divides (argv.drop 1) requests words) : result = o.read environment argv := by
  rw [read, arguments_of_divides h]
  cases hreads with
  | words hgoes =>
      rw [requests_of_goesOn hgoes, follow, takeWords, joinWords_eq]
      rfl
  | ended hrequests hbefore hend =>
      subst hrequests
      rw [requests_append, requests_of_goesOn hbefore, follow, requests_cons, request_of_ends hend]
      rfl

theorem reads_iff (o : Options) (environment : Option Bytes) {argv : List Bytes}
    (h : Divides (argv.drop 1) requests words) (result : Options × Verdict) :
    o.Reads environment requests words result ↔ result = o.read environment argv := by
  constructor
  · exact fun hreads => hreads.eq_read h
  · rintro rfl
    obtain ⟨result, hreads⟩ := o.exists_reads environment requests words
    exact hreads.eq_read h ▸ hreads

/-- Every command line divides in one way into the requests of its options, which are settled in
front of the first word or the pair of hyphens, and into its words, and does to the options what
these say. On any number of command lines one after the other, scanned for options in whatever state
the one before has left the scanner, each does so by itself. -/
theorem reads_commandLines :
    (∀ (o : Options) environment argv, ∃ requests words,
      Divides (argv.drop 1) requests words ∧
      (∀ requests' words', Divides (argv.drop 1) requests' words' →
        requests' = requests ∧ words' = words) ∧
      (∃ front,
        (argv.drop 1 = front ++ words ∨ argv.drop 1 = front ++ [hyphen, hyphen] :: words) ∧
        ∀ others, Divides (front ++ [hyphen, hyphen] :: others) requests others ∧
          ∀ word, IsOperand word → Divides (front ++ word :: others) requests (word :: others)) ∧
      ∀ result, o.Reads environment requests words result ↔ result = o.read environment argv) ∧
    ∀ (s : Scanner) (o : Options) lines, s.readAll o lines = o.readAll lines := by
  refine ⟨fun o environment argv => ?_, Scanner.readAll_eq⟩
  obtain ⟨requests, words, h⟩ := exists_divides (argv.drop 1)
  exact ⟨requests, words, h, fun _ _ h' => h'.unique h, h.exists_front,
    reads_iff o environment h⟩

/-- Help in the middle of letters, behind which nothing comes into force any more. -/
theorem reads_commandLines_cluster :
    ∃ requests words, Divides [ascii "-jht", ascii "1"] requests words ∧
      requests = [.switch .json, .switch .help, .switch .trace] ∧ words = [ascii "1"] ∧
      Reads {} none requests words (read {} none [ascii "mathc", ascii "-jht", ascii "1"]) ∧
      read {} none [ascii "mathc", ascii "-jht", ascii "1"] =
        ({ json := true }, .stop 0 usage) := by
  obtain ⟨requests, words, h, hunique, -, hreads⟩ :=
    reads_commandLines.1 {} none [ascii "mathc", ascii "-jht", ascii "1"]
  have hletters : Asks (ascii "-jht") [.switch .json, .switch .help, .switch .trace] :=
    .letters (by decide) (by decide)
      (.cons (.switch .json) (.cons (.switch .help) (.cons (.switch .trace) .nil)))
  have hdivides := Divides.options hletters (.word [] (Or.inl (by decide) : IsOperand (ascii "1")))
  obtain ⟨rfl, rfl⟩ := hunique _ _ hdivides
  exact ⟨_, _, h, rfl, rfl, (hreads _).mpr rfl, rfl⟩

end Options

end Calculator
