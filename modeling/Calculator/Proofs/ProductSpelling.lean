import Calculator.Proofs.GrammarProducts
import Calculator.Proofs.ScriptAppend
import Mathlib.Data.Finset.Insert

/-!
Products in texts. Any of the stars of a text can be replaced by blanks, and a star can be put in
front of any operand that stands right behind another one: the text that comes out has the same
tree. Neither edit touches the bytes of a numeral or joins two of them.
-/

namespace Calculator

/-- A text with every byte replaced as its place asks for; the text starts at `place`. -/
def edited (edit : Nat → UInt8 → Bytes) (place : Nat) : Bytes → Bytes
  | [] => []
  | byte :: rest => edit place byte ++ edited edit (place + 1) rest

/-- A blank instead of a star at one of some places. -/
def blankStar (places : Finset Nat) (place : Nat) (byte : UInt8) : Bytes :=
  if byte = asciiByte '*' ∧ place ∈ places then [asciiByte ' '] else [byte]

/-- A star in front of the byte at one of some places. -/
def addStar (places : Finset Nat) (place : Nat) (byte : UInt8) : Bytes :=
  if place ∈ places then [asciiByte '*', byte] else [byte]

/-- An edit that starts with a byte of no numeral, unless it edits a byte of a numeral. -/
def KeepsSeams (edit : Nat → UInt8 → Bytes) : Prop :=
  ∀ place byte, ∃ first more, edit place byte = first :: more ∧
    (isNumeral first → isNumeral byte)

section
variable {edit : Nat → UInt8 → Bytes} {a b : Bytes}

theorem edited_append (a b : Bytes) (place : Nat) :
    edited edit place (a ++ b) = edited edit place a ++ edited edit (place + a.length) b := by
  induction a generalizing place with
  | nil => rfl
  | cons byte a ih =>
      have hplace : place + 1 + a.length = place + (byte :: a).length := by
        rw [List.length_cons]
        omega
      rw [List.cons_append, edited, edited, ih, hplace, List.append_assoc]

theorem edited_eq_self {place : Nat}
    (h : ∀ i byte, place ≤ i → i < place + a.length → byte ∈ a → edit i byte = [byte]) :
    edited edit place a = a := by
  induction a generalizing place with
  | nil => rfl
  | cons byte a ih =>
      rw [List.length_cons] at h
      rw [edited, h place byte (by omega) (by omega) List.mem_cons_self, List.singleton_append,
        ih fun i x hplace hi hx => h i x (by omega) (by omega) (List.mem_cons_of_mem _ hx)]

theorem edited_singleton (place : Nat) (byte : UInt8) :
    edited edit place [byte] = edit place byte :=
  List.append_nil _

theorem Seam.edited (h : Seam a b) (hedit : KeepsSeams edit) (place : Nat) :
    Seam a (edited edit place b) := by
  intro x hx y hy
  cases b with
  | nil => cases hy
  | cons byte b =>
      obtain ⟨first, more, hfirst, hnumeral⟩ := hedit place byte
      rw [Calculator.edited, hfirst] at hy
      obtain rfl := Option.some.inj hy
      have hbyte := h x hx byte rfl
      rw [Bool.and_eq_false_iff] at hbyte ⊢
      refine hbyte.imp_right fun hbyte => ?_
      rw [Bool.eq_false_iff] at hbyte ⊢
      exact fun hfirst => hbyte (hnumeral hfirst)

end

theorem keepsSeams_blankStar (places : Finset Nat) : KeepsSeams (blankStar places) := by
  intro place byte
  unfold blankStar
  split
  · exact ⟨_, [], rfl, fun hblank => absurd hblank (by decide)⟩
  · exact ⟨byte, [], rfl, id⟩

theorem keepsSeams_addStar (places : Finset Nat) : KeepsSeams (addStar places) := by
  intro place byte
  unfold addStar
  split
  · exact ⟨_, [byte], rfl, fun hstar => absurd hstar (by decide)⟩
  · exact ⟨byte, [], rfl, id⟩

section
variable {places : Finset Nat} {a : Bytes}

theorem ofByte?_star : Mark.ofByte? (asciiByte '*') = some .star := rfl

theorem edited_blankStar_of_not_mem (h : asciiByte '*' ∉ a) (place : Nat) :
    edited (blankStar places) place a = a := by
  apply edited_eq_self
  rintro i byte - - hbyte
  apply if_neg
  rintro ⟨rfl, -⟩
  exact h hbyte

theorem edited_blankStar_blanks (h : ∀ byte ∈ a, isBlank byte) (place : Nat) :
    edited (blankStar places) place a = a :=
  edited_blankStar_of_not_mem (fun hstar => not_isBlank_of_ofByte? ofByte?_star (h _ hstar)) place

/-- The tokens of the new text are those of the old one without some stars. -/
theorem thins_blanked (places : Finset Nat) {stop : Nat} (c : Cursor)
    (h : (Script.behind c).ending = .ok stop) :
    ∃ tokens, tokenize (edited (blankStar places) c.offset c.rest) = .ok tokens ∧
      Thins ((Script.behind c).lexemes.map Lexeme.token) tokens := by
  induction c using Script.parts_induction with
  | fault c fault hfault => cases h
  | ending blanks offset hblanks =>
      rw [edited_blankStar_blanks hblanks]
      exact ⟨[], tokenize_blanks hblanks, .nil⟩
  | token blanks body rest offset token hblanks hbody hseam ih =>
      obtain ⟨tokens, htokens, hthins⟩ := ih h
      have hkept := tokenize_append (seam_of_blanks hblanks) (tokenize_blanks hblanks)
        (tokenize_append (hseam.edited (keepsSeams_blankStar places) _) (tokenize_body hbody)
          htokens)
      dsimp only
      rw [edited_append, edited_blankStar_blanks hblanks, edited_append]
      cases hbody with
      | number hrun =>
          have hstar : asciiByte '*' ∉ body := fun hmem =>
            not_isNumeral_of_ofByte? ofByte?_star (hrun _ hmem)
          rw [edited_blankStar_of_not_mem hstar]
          exact ⟨_, hkept, .keep _ hthins⟩
      | @mark m byte hmark =>
          rw [edited_singleton, blankStar]
          split
          · rename_i hedit
            obtain ⟨rfl, -⟩ := hedit
            obtain rfl : Mark.star = m := Option.some.inj hmark
            have hblank : ∀ byte ∈ [asciiByte ' '], isBlank byte :=
              List.forall_mem_singleton.mpr rfl
            exact ⟨tokens, tokenize_append (seam_of_blanks hblanks) (tokenize_blanks hblanks)
              (tokenize_append (seam_of_blanks hblank) (tokenize_blanks hblank) htokens),
              .drop _ hthins⟩
          · exact ⟨_, hkept, .keep _ hthins⟩

end

/-- The places where an operand starts right behind the end of another one. -/
def productPlaces : List Lexeme → List Nat
  | [] => []
  | [_] => []
  | lexeme :: next :: rest =>
    if lexeme.token.Ends ∧ next.token.Starts then next.offset :: productPlaces (next :: rest)
    else productPlaces (next :: rest)

/-- From `start` on, all of some places are places of products. -/
def MarksProducts (places : Finset Nat) (start : Nat) (lexemes : List Lexeme) : Prop :=
  ∀ place ∈ places, start ≤ place → place ∈ productPlaces lexemes

section
variable {lexeme : Lexeme} {others : List Lexeme} {place : Nat}

theorem exists_of_mem_productPlaces (h : place ∈ productPlaces (lexeme :: others)) :
    ∃ next ∈ others, next.offset = place := by
  induction others generalizing lexeme with
  | nil => cases h
  | cons next rest ih =>
      have hmem : place = next.offset ∨ place ∈ productPlaces (next :: rest) := by
        rw [productPlaces] at h
        split at h
        · exact List.mem_cons.mp h
        · exact Or.inr h
      rcases hmem with rfl | hmem
      · exact ⟨next, List.mem_cons_self, rfl⟩
      · obtain ⟨found, hfound, hplace⟩ := ih hmem
        exact ⟨found, List.mem_cons_of_mem _ hfound, hplace⟩

theorem mem_productPlaces {before : Option Lexeme}
    (h : place ∈ productPlaces (before.toList ++ lexeme :: others)) :
    (place = lexeme.offset ∧ ∃ last ∈ before, last.token.Ends ∧ lexeme.token.Starts) ∨
      place ∈ productPlaces (lexeme :: others) := by
  cases before with
  | none => exact Or.inr h
  | some last =>
      have h : place ∈ productPlaces (last :: lexeme :: others) := h
      rw [productPlaces] at h
      split at h
      · rename_i hboth
        rcases List.mem_cons.mp h with rfl | h
        · exact Or.inl ⟨rfl, last, rfl, hboth⟩
        · exact Or.inr h
      · exact Or.inr h

/-- Up to the lexemes behind the first one, no place but the one of the first lexeme is marked, and
this one only if the first lexeme starts an operand behind the end of another. -/
theorem MarksProducts.step {places : Finset Nat} {before : Option Lexeme} {start stop : Nat}
    (h : MarksProducts places start (before.toList ++ lexeme :: others))
    (hstart : start ≤ lexeme.offset) (hstop : lexeme.offset < stop)
    (hothers : ∀ next ∈ others, stop ≤ next.offset) :
    (∀ place ∈ places, start ≤ place → lexeme.offset ≤ place) ∧
      (lexeme.offset ∈ places → ∃ last ∈ before, last.token.Ends ∧ lexeme.token.Starts) ∧
      (∀ place ∈ places, lexeme.offset < place → stop ≤ place) ∧
      MarksProducts places stop ((some lexeme).toList ++ others) := by
  have hbehind : ∀ place ∈ productPlaces (lexeme :: others), stop ≤ place := by
    intro place hplace
    obtain ⟨next, hnext, rfl⟩ := exists_of_mem_productPlaces hplace
    exact hothers next hnext
  refine ⟨?_, ?_, ?_, ?_⟩
  · intro place hplace hle
    rcases mem_productPlaces (h place hplace hle) with ⟨rfl, -⟩ | hmem
    · exact Nat.le_refl _
    · exact Nat.le_of_lt (Nat.lt_of_lt_of_le hstop (hbehind place hmem))
  · intro hplace
    rcases mem_productPlaces (h _ hplace hstart) with ⟨-, hboth⟩ | hmem
    · exact hboth
    · exact absurd (hbehind _ hmem) (Nat.not_le_of_lt hstop)
  · intro place hplace hlt
    rcases mem_productPlaces (h place hplace (by omega)) with ⟨rfl, -⟩ | hmem
    · exact absurd hlt (Nat.lt_irrefl _)
    · exact hbehind place hmem
  · intro place hplace hle
    rcases mem_productPlaces (h place hplace (by omega)) with ⟨rfl, -⟩ | hmem
    · exact absurd hle (Nat.not_le_of_lt hstop)
    · exact hmem

end

section
variable {places : Finset Nat} {a : Bytes}

theorem edited_addStar_of_not_mem {place : Nat}
    (h : ∀ i ∈ places, place ≤ i → place + a.length ≤ i) :
    edited (addStar places) place a = a := by
  apply edited_eq_self
  intro i byte hplace hi _
  apply if_neg
  intro hmem
  have := h i hmem hplace
  omega

theorem edited_addStar_body {place : Nat} (ha : a ≠ [])
    (h : ∀ i ∈ places, place < i → place + a.length ≤ i) :
    edited (addStar places) place a = if place ∈ places then asciiByte '*' :: a else a := by
  obtain ⟨byte, a, rfl⟩ := List.exists_cons_of_ne_nil ha
  have hrest : edited (addStar places) (place + 1) a = a := by
    apply edited_addStar_of_not_mem
    intro i hi hplace
    have := h i hi hplace
    rw [List.length_cons] at this
    omega
  rw [edited, hrest, addStar]
  split <;> rfl

theorem Thins.withProducts_cons {token : Token} {s t : List Token}
    (h : Thins (productBetween [token] s ++ withProducts s) t) :
    Thins (withProducts (token :: s)) (token :: t) := by
  rw [← List.singleton_append, withProducts_append]
  exact .keep token h

theorem Thins.productBetween_append {u v : List Token} (h : Thins u v) (s t : List Token) :
    Thins (productBetween s t ++ u) v := by
  unfold productBetween
  split
  · split
    · exact .drop _ h
    · exact h
  · exact h

/-- The tokens of the new text are those of the old one with some of the stars between operands that
meet. In front of what is read next stands the last lexeme that was read. -/
theorem thins_starred {stop : Nat} (c : Cursor) {before : Option Lexeme}
    (h : (Script.behind c).ending = .ok stop)
    (hplaces : MarksProducts places c.offset (before.toList ++ (Script.behind c).lexemes)) :
    ∃ tokens, tokenize (edited (addStar places) c.offset c.rest) = .ok tokens ∧
      Thins (productBetween (before.toList.map Lexeme.token)
          ((Script.behind c).lexemes.map Lexeme.token) ++
        withProducts ((Script.behind c).lexemes.map Lexeme.token)) tokens := by
  induction c using Script.parts_induction generalizing before with
  | fault c fault hfault => cases h
  | ending blanks offset hblanks =>
      have hnone : ∀ i ∈ places, offset ≤ i → offset + blanks.length ≤ i := by
        intro i hi hoffset
        have hmem := hplaces i hi hoffset
        cases before <;> cases hmem
      rw [edited_addStar_of_not_mem hnone]
      exact ⟨[], tokenize_blanks hblanks, Thins.nil.productBetween_append _ _⟩
  | token blanks body rest offset token hblanks hbody hseam ih =>
      have hlength := List.length_pos_iff.mpr hbody.ne_nil
      obtain ⟨hbefore, hhere, hinside, hothers⟩ := hplaces.step (Nat.le_add_right _ _)
        (Nat.lt_add_of_pos_right hlength)
        fun next hnext => (Script.offset_mem_behind _ next hnext).1
      obtain ⟨tokens, htokens, hthins⟩ := ih h hothers
      have hkept := tokenize_append (hseam.edited (keepsSeams_addStar places) _)
        (tokenize_body hbody) htokens
      dsimp only at hkept ⊢
      rw [edited_append, edited_addStar_of_not_mem hbefore, edited_append,
        edited_addStar_body hbody.ne_nil hinside]
      by_cases hplace : offset + blanks.length ∈ places
      · obtain ⟨last, rfl, hends, hstarts⟩ := hhere hplace
        rw [if_pos hplace, productBetween_of_both rfl rfl hends hstarts]
        exact ⟨_, tokenize_mark ofByte?_star (tokenize_blanks hblanks) hkept,
          .keep _ hthins.withProducts_cons⟩
      · rw [if_neg hplace]
        exact ⟨_, tokenize_append (seam_of_blanks hblanks) (tokenize_blanks hblanks) hkept,
          hthins.withProducts_cons.productBetween_append _ _⟩

end

/-- A text with blanks instead of its stars at some places. -/
def blanked (places : Finset Nat) (text : Bytes) : Bytes := edited (blankStar places) 0 text

/-- A text with stars in front of its bytes at some places. -/
def starred (places : Finset Nat) (text : Bytes) : Bytes := edited (addStar places) 0 text

/-- Implicit and explicit products are the same. A text keeps its tree, and its value or fault, when
any of its stars become blanks, and when stars are put wherever an operand starts right behind the
end of another one. -/
theorem parse_respelled {text : Bytes} {tree : Tree.Measured}
    (h : (Parser.ofText text).parse.1 = .ok tree) (places : Finset Nat) :
    ((Parser.ofText (blanked places text)).parse.1 = .ok tree ∧
      (calculate (blanked places text)).map Calculation.value =
        (calculate text).map Calculation.value) ∧
    ((∀ place ∈ places, place ∈ productPlaces (Script.ofText text).lexemes) →
      (Parser.ofText (starred places text)).parse.1 = .ok tree ∧
        (calculate (starred places text)).map Calculation.value =
          (calculate text).map Calculation.value) := by
  have hparse : parse text = .ok tree := (Parser.ofText text).parse_eq.symm.trans h
  obtain ⟨⟨stop, hending⟩, hheight, n, hn, hderives⟩ :=
    Script.parse_eq_ok (fun _ => Script.isSpelled_of_mem_ofText) hparse
  rw [tree.height_eq] at hheight
  have hsame {text' : Bytes} {tokens : List Token} (htokens : tokenize text' = .ok tokens)
      (hderives : Derives .expression tokens tree.tree n) :
      (Parser.ofText text').parse.1 = .ok tree ∧
        (calculate text').map Calculation.value = (calculate text).map Calculation.value := by
    have hparse' := parse_of_derives htokens hderives hn hheight
    rw [Tree.measured_tree] at hparse'
    refine ⟨(Parser.ofText text').parse_eq.trans hparse', ?_⟩
    rw [value_of_parse hparse', value_of_parse hparse]
  refine ⟨?_, ?_⟩
  · obtain ⟨tokens, htokens, hthins⟩ := thins_blanked places (.ofText text) hending
    exact hsame htokens (hderives.thins hthins)
  · intro hplaces
    have hmarks : MarksProducts places 0
        ((none : Option Lexeme).toList ++ (Script.ofText text).lexemes) :=
      fun place hplace _ => hplaces place hplace
    obtain ⟨tokens, htokens, hthins⟩ := thins_starred (.ofText text) hending hmarks
    exact hsame htokens (hderives.withProducts.thins hthins)

theorem parse_respelledProducts :
    (Parser.ofText (ascii "2^3(4) 5")).parse.1 = (Parser.ofText (ascii "2^3(4)*5")).parse.1 ∧
      (Parser.ofText (ascii "2^3*(4)*5")).parse.1 =
        (Parser.ofText (ascii "2^3(4)*5")).parse.1 := by
  have h : (Parser.ofText (ascii "2^3(4)*5")).parse.1 =
      .ok (Tree.binary Operator.mul.symbol
        (.binary Operator.mul.symbol
          (.binary Operator.pow.symbol (.literal (.whole 2)) (.literal (.whole 3)))
          (.literal (.whole 4))) (.literal (.whole 5))).measured :=
    eq_ok_of_toOption (by decide +kernel)
  have hblanked : blanked {6} (ascii "2^3(4)*5") = ascii "2^3(4) 5" := by decide +kernel
  have hstarred : starred {3} (ascii "2^3(4)*5") = ascii "2^3*(4)*5" := by decide +kernel
  have hplaces : ∀ place ∈ ({3} : Finset Nat),
      place ∈ productPlaces (Script.ofText (ascii "2^3(4)*5")).lexemes := by decide +kernel
  rw [← hblanked, ← hstarred, h]
  exact ⟨(parse_respelled h {6}).1.1, ((parse_respelled h {3}).2 hplaces).1⟩

end Calculator
