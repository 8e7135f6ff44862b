import CanonicalLR.Proofs.Token.Runs
import CanonicalLR.Token
import Mathlib.Data.List.Chain

/-!
Reading what has been written. Tokens are written one behind the other with blank space around them,
and some of it between two integers. A line is read as some tokens exactly if it is these tokens,
written so; it is refused exactly if it holds a character that no token is made of, and then for the
first such character.
-/

set_option autoImplicit false
set_option relaxedAutoImplicit false

namespace CanonicalLR

/-- An integer of one or more digits, or a punctuator. -/
def Token.IsLexeme : Token → Prop
  | .integer digits => digits ≠ "" ∧ ∀ c ∈ digits.toList, c.isDigit = true
  | .punctuator c => c ∈ punctuators
  | .space => False

-- not left to instance search, which can find one that goes through all characters there are
instance : (token : Token) → Decidable token.IsLexeme
  | .integer digits =>
    decidable_of_iff (digits ≠ "" ∧ digits.toList.all Char.isDigit = true)
      (and_congr_right' List.all_eq_true)
  | .punctuator c => inferInstanceAs (Decidable (c ∈ Token.punctuators))
  | .space => inferInstanceAs (Decidable False)

def Token.isInteger : Token → Bool
  | .integer _ => true
  | _ => false

/-- A token and the blank space before it. -/
structure Spaced where
  gap : List Char
  token : Token

namespace Spaced

/-- The tokens as they are written, each behind its blank space, and blank space at the end. -/
def write (pieces : List Spaced) (last : List Char) : List Char :=
  (pieces.flatMap fun piece => piece.gap ++ piece.token.render.toList) ++ last

/-- The tokens and the blank space can be written and told apart again. -/
structure IsSpacing (pieces : List Spaced) (last : List Char) : Prop where
  lexemes : ∀ piece ∈ pieces, piece.token.IsLexeme
  gaps : ∀ piece ∈ pieces, ∀ c ∈ piece.gap, Token.isSpace c = true
  last : ∀ c ∈ last, Token.isSpace c = true
  apart : pieces.IsChain fun left right =>
    left.token.isInteger = true → right.token.isInteger = true → right.gap ≠ []

instance (pieces : List Spaced) (last : List Char) : Decidable (IsSpacing pieces last) :=
  decidable_of_iff
    ((∀ piece ∈ pieces, piece.token.IsLexeme) ∧
      (∀ piece ∈ pieces, piece.gap.all Token.isSpace = true) ∧ last.all Token.isSpace = true ∧
      pieces.IsChain fun left right =>
        left.token.isInteger = true → right.token.isInteger = true → right.gap ≠ []) <| by
    simp only [List.all_eq_true]
    exact ⟨fun ⟨lexemes, gaps, last, apart⟩ => ⟨lexemes, gaps, last, apart⟩,
      fun ⟨lexemes, gaps, last, apart⟩ => ⟨lexemes, gaps, last, apart⟩⟩

variable {piece : Spaced} {pieces : List Spaced} {last : List Char}

theorem write_cons (piece : Spaced) (pieces : List Spaced) (last : List Char) :
    write (piece :: pieces) last =
      piece.gap ++ (piece.token.render.toList ++ write pieces last) := by
  simp [write, List.append_assoc]

theorem isSpacing_nil : IsSpacing [] last ↔ ∀ c ∈ last, Token.isSpace c = true :=
  ⟨fun spacing => spacing.last, fun blank => ⟨nofun, nofun, blank, .nil⟩⟩

theorem isSpacing_cons : IsSpacing (piece :: pieces) last ↔
    piece.token.IsLexeme ∧ (∀ c ∈ piece.gap, Token.isSpace c = true) ∧
      (∀ next ∈ pieces.head?, piece.token.isInteger = true → next.token.isInteger = true →
        next.gap ≠ []) ∧ IsSpacing pieces last := by
  constructor
  · rintro ⟨lexemes, gaps, blank, apart⟩
    obtain ⟨lexeme, lexemes⟩ := List.forall_mem_cons.mp lexemes
    obtain ⟨gap, gaps⟩ := List.forall_mem_cons.mp gaps
    obtain ⟨first, apart⟩ := List.isChain_cons.mp apart
    exact ⟨lexeme, gap, first, lexemes, gaps, blank, apart⟩
  · rintro ⟨lexeme, gap, first, lexemes, gaps, blank, apart⟩
    exact ⟨List.forall_mem_cons.mpr ⟨lexeme, lexemes⟩, List.forall_mem_cons.mpr ⟨gap, gaps⟩, blank,
      List.isChain_cons.mpr ⟨first, apart⟩⟩

/-- A token is written with a first character, which is not blank space. -/
private theorem exists_head_render {token : Token} (lexeme : token.IsLexeme) :
    ∃ c text, token.render.toList = c :: text ∧ Token.isSpace c = false ∧
      (c.isDigit = true ↔ token.isInteger = true) := by
  cases token with
  | space => exact absurd lexeme id
  | integer digits =>
    obtain ⟨nonempty, inside⟩ := lexeme
    obtain ⟨c, text, spelled⟩ :=
      List.exists_cons_of_ne_nil (mt String.toList_eq_nil_iff.mp nonempty)
    have digit : c.isDigit = true := inside c (spelled ▸ List.mem_cons_self ..)
    refine ⟨c, text, spelled, ?_, fun _ => rfl, fun _ => digit⟩
    by_contra space
    cases digit.symm.trans (Token.isDigit_of_isSpace (by simpa using space))
  | punctuator c =>
    obtain ⟨visible, other⟩ := Token.classes_of_mem_punctuators lexeme
    exact ⟨c, [], by simp [Token.render], visible, by simp [other, Token.isInteger]⟩

/-- A token that is written before a text is read from it, if it cannot be longer. -/
private theorem standsFor_render {token : Token} {rest : List Char} (lexeme : token.IsLexeme)
    (closes : token.isInteger = true → ∀ c ∈ rest.head?, c.isDigit = false) :
    token.StandsFor [] token.render.toList rest := by
  cases token with
  | space => exact absurd lexeme id
  | integer digits =>
    obtain ⟨nonempty, inside⟩ := lexeme
    exact ⟨rfl, mt String.toList_eq_nil_iff.mp nonempty, inside, nofun, closes rfl⟩
  | punctuator c => exact ⟨by simp [Token.render], lexeme⟩

/-- Tokens of which the first cannot be the rest of an integer do not begin with a digit. -/
private theorem isDigit_head_write (spacing : IsSpacing pieces last)
    (apart : ∀ next ∈ pieces.head?, next.token.isInteger = true → next.gap ≠ []) :
    ∀ c ∈ (write pieces last).head?, c.isDigit = false := by
  intro c head
  cases pieces with
  | nil => exact Token.isDigit_of_isSpace (spacing.last c (List.mem_of_head? head))
  | cons piece pieces =>
    obtain ⟨lexeme, gap, -, -⟩ := isSpacing_cons.mp spacing
    rw [write_cons] at head
    cases here : piece.gap with
    | cons d gap' =>
      rw [here] at head gap
      cases head
      exact Token.isDigit_of_isSpace (gap c (List.mem_cons_self ..))
    | nil =>
      obtain ⟨d, text, spelled, -, digit⟩ := exists_head_render lexeme
      rw [here, spelled] at head
      cases head
      by_contra number
      exact apart piece rfl (digit.mp (by simpa using number)) here

/-- The tokens of runs that reach up to the end of a line can be written with spacing. -/
private theorem exists_spacing {before : List Char} {runs : List Run}
    (tile : Run.Tile before runs []) : ∃ pieces last, IsSpacing pieces last ∧
      Run.concat runs = write pieces last ∧
      (runs.map (·.token)).filter (· != .space) = pieces.map (·.token) := by
  induction runs generalizing before with
  | nil => exact ⟨[], [], isSpacing_nil.mpr nofun, rfl, rfl⟩
  | cons run runs ih =>
    obtain ⟨stands, tile⟩ := Run.tile_cons.mp tile
    obtain ⟨pieces, last, spacing, whole, tokens⟩ := ih tile
    rw [List.append_nil, whole] at stands
    obtain ⟨token, text⟩ := run
    have concat : Run.concat (⟨token, text⟩ :: runs) = text ++ write pieces last := by
      rw [← whole]
      rfl
    rw [concat, List.map_cons]
    cases token with
    | space =>
      -- blank space is put before the next token, or at the end
      cases pieces with
      | nil =>
        refine ⟨[], text ++ last, isSpacing_nil.mpr fun c mem => ?_, rfl, tokens⟩
        exact (List.mem_append.mp mem).elim (stands.inside c) (spacing.last c)
      | cons piece pieces =>
        obtain ⟨lexeme, gap, apart, spacing⟩ := isSpacing_cons.mp spacing
        refine ⟨⟨text ++ piece.gap, piece.token⟩ :: pieces, last,
          isSpacing_cons.mpr ⟨lexeme, fun c mem => ?_, apart, spacing⟩, ?_, tokens⟩
        · exact (List.mem_append.mp mem).elim (stands.inside c) (gap c)
        · rw [write_cons, write_cons, List.append_assoc]
    | integer digits =>
      obtain ⟨rfl, nonempty, inside, -, closes⟩ := stands
      refine ⟨⟨[], .integer digits⟩ :: pieces, last, isSpacing_cons.mpr ⟨⟨?_, inside⟩, nofun, ?_,
        spacing⟩, ?_, congrArg _ tokens⟩
      · exact mt String.toList_eq_nil_iff.mpr nonempty
      · intro next first _ number adjacent
        obtain ⟨others, rfl⟩ := List.head?_eq_some_iff.mp first
        obtain ⟨lexeme, -, -, -⟩ := isSpacing_cons.mp spacing
        obtain ⟨c, text, spelled, -, digit⟩ := exists_head_render lexeme
        rw [write_cons, adjacent, spelled] at closes
        cases (closes c rfl).symm.trans (digit.mpr number)
      · rw [write_cons]
        rfl
    | punctuator c =>
      obtain ⟨rfl, known⟩ := stands
      refine ⟨⟨[], .punctuator c⟩ :: pieces, last, isSpacing_cons.mpr ⟨known, nofun, ?_, spacing⟩, ?_,
        congrArg _ tokens⟩
      · exact fun next _ number => by cases number
      · rw [write_cons]
        simp [Token.render]

/-- Without the blank space, what is written is the tokens one behind the other. -/
private theorem filter_write (spacing : IsSpacing pieces last) :
    (write pieces last).filter (!Token.isSpace ·) =
      (pieces.map (·.token)).flatMap (·.render.toList) := by
  have blank : ∀ text : List Char, (∀ c ∈ text, Token.isSpace c = true) →
      text.filter (!Token.isSpace ·) = [] := by
    intro text spaces
    exact List.filter_eq_nil_iff.mpr fun c mem => by simp [spaces c mem]
  induction pieces with
  | nil => exact blank last spacing.last
  | cons piece pieces ih =>
    obtain ⟨lexeme, gap, -, spacing⟩ := isSpacing_cons.mp spacing
    have visible : ∀ c ∈ piece.token.render.toList, (!Token.isSpace c) = true := by
      generalize piece.token = token at lexeme
      cases token with
      | space => exact absurd lexeme id
      | integer digits =>
        intro c mem
        by_contra space
        cases (lexeme.2 c mem).symm.trans (Token.isDigit_of_isSpace (by simpa using space))
      | punctuator c => simpa [Token.render] using (Token.classes_of_mem_punctuators lexeme).1
    rw [write_cons, List.filter_append, List.filter_append, blank _ gap, ih spacing,
      List.filter_eq_self.mpr visible]
    rfl

end Spaced

namespace Scanner

/-- All that is read but blank space. -/
def shown (s : Scanner) : List (Except LexError Token) := s.results.filter (· ≠ .ok .space)

/-- Blank space is read over. -/
private theorem shown_gap {gap : List Char} (rest : List Char)
    (blank : ∀ c ∈ gap, Token.isSpace c = true)
    (closes : ∀ c ∈ rest.head?, Token.isSpace c = false) (offset : Nat) :
    ∃ later, (⟨gap ++ rest, offset⟩ : Scanner).shown = (⟨rest, later⟩ : Scanner).shown := by
  by_cases nothing : gap = []
  · exact ⟨offset, by rw [nothing]; rfl⟩
  · have stands : Token.space.StandsFor [] gap rest := ⟨nothing, blank, nofun, closes⟩
    exact ⟨_, by rw [shown, results_of_next (next_of_standsFor stands offset)]; rfl⟩

/-- What is shown of written tokens are these tokens. -/
private theorem shown_write {pieces : List Spaced} {last : List Char}
    (spacing : Spaced.IsSpacing pieces last) (offset : Nat) :
    (⟨Spaced.write pieces last, offset⟩ : Scanner).shown = pieces.map fun piece => .ok piece.token := by
  induction pieces generalizing offset with
  | nil =>
    obtain ⟨later, same⟩ := shown_gap [] spacing.last nofun offset
    rw [List.append_nil] at same
    exact same.trans (congrArg (List.filter _) (results_eq_nil rfl))
  | cons piece pieces ih =>
    obtain ⟨lexeme, gap, apart, spacing⟩ := Spaced.isSpacing_cons.mp spacing
    obtain ⟨c, text, spelled, visible, -⟩ := Spaced.exists_head_render lexeme
    rw [Spaced.write_cons]
    obtain ⟨later, same⟩ := shown_gap (piece.token.render.toList ++ Spaced.write pieces last) gap
      (by rw [spelled]; simpa using visible) offset
    have stands := Spaced.standsFor_render lexeme fun number =>
      Spaced.isDigit_head_write spacing fun next first => apart next first number
    have kept : (.ok piece.token : Except LexError Token) ≠ .ok .space := by
      intro blank
      rw [Except.ok.inj blank] at lexeme
      exact lexeme
    rw [same, shown, results_of_next (next_of_standsFor stands later),
      List.filter_cons_of_pos (by simpa using kept), List.map_cons]
    exact congrArg _ (ih spacing _)

end Scanner

namespace Token

variable {line : String} {tokens : List Token}

private theorem mapM_id_cons {token : Token} (results : List (Except LexError Token)) :
    (.ok token :: results).mapM id = (results.mapM id).map (token :: ·) := by
  rw [List.mapM_cons]
  rfl

private theorem mapM_id_ok (tokens : List Token) :
    (tokens.map (.ok : Token → Except LexError Token)).mapM id = .ok tokens := by
  induction tokens with
  | nil => rfl
  | cons token tokens ih =>
    rw [List.map_cons, mapM_id_cons, ih]
    rfl

/-- Blank space can be left out before the first error is looked for. -/
theorem ofLine_eq_shown (line : String) : ofLine line = (Scanner.ofLine line).shown.mapM id := by
  unfold ofLine Scanner.shown
  induction (Scanner.ofLine line).results with
  | nil => rfl
  | cons result results ih =>
    cases result with
    | error e => rfl
    | ok token =>
      rw [mapM_id_cons]
      by_cases blank : token = .space
      · rw [List.filter_cons_of_neg (by simpa using blank), ← ih]
        cases results.mapM id with
        | error e => rfl
        | ok others => simp [Except.map, blank]
      · rw [List.filter_cons_of_pos (by simpa using blank), mapM_id_cons, ← ih]
        cases results.mapM id with
        | error e => rfl
        | ok others => simp [Except.map, blank]

private theorem mapM_id_append_refusal (tokens : List Token) (rest : List Char) (offset : Nat) :
    (tokens.map Except.ok ++ Run.refusal rest offset).mapM id = match rest with
      | [] => .ok tokens
      | c :: _ => .error ⟨c, offset⟩ := by
  cases rest with
  | nil => exact (congrArg (List.mapM id) (List.append_nil _)).trans (mapM_id_ok tokens)
  | cons c rest =>
    rw [List.mapM_append, mapM_id_ok]
    rfl

/-- A line is read as the tokens of its runs but blank space, if nothing is behind them, and is
refused for the first character behind them otherwise. -/
private theorem exists_ofLine (line : String) : ∃ runs rest,
    line.toList = Run.concat runs ++ rest ∧ Run.Tile [] runs rest ∧
      (∀ c ∈ rest.head?, isKnown c = false) ∧
      ofLine line = match rest with
        | [] => .ok ((runs.map (·.token)).filter (· != .space))
        | c :: _ => .error ⟨c, (Run.concat runs).length⟩ := by
  obtain ⟨runs, rest, whole, tile, closes⟩ := Run.exists_tile line.toList
  refine ⟨runs, rest, whole, tile, closes, ?_⟩
  have results := Run.results_of_tile tile closes 0
  rw [← whole, Nat.zero_add, ← Function.comp_def Except.ok, ← List.map_map] at results
  have read := mapM_id_append_refusal (runs.map (·.token)) rest (Run.concat runs).length
  rw [← results] at read
  refine (congrArg (Except.map _) read).trans ?_
  cases rest <;> rfl

/-- A line is read as the tokens that are written in it, whatever the blank space around them. -/
theorem ofLine_eq_ok_iff : ofLine line = .ok tokens ↔ ∃ pieces last,
    Spaced.IsSpacing pieces last ∧ line.toList = Spaced.write pieces last ∧
      tokens = pieces.map (·.token) := by
  constructor
  · intro read
    obtain ⟨runs, rest, whole, tile, -, value⟩ := exists_ofLine line
    cases rest with
    | cons c rest => cases value.symm.trans read
    | nil =>
      obtain ⟨pieces, last, spacing, text, same⟩ := Spaced.exists_spacing tile
      rw [List.append_nil] at whole
      have equal := Except.ok.inj (value.symm.trans read)
      exact ⟨pieces, last, spacing, whole.trans text, equal.symm.trans same⟩
  · rintro ⟨pieces, last, spacing, text, rfl⟩
    have shown := Scanner.shown_write spacing 0
    rw [← text] at shown
    rw [ofLine_eq_shown, ← mapM_id_ok, List.map_map]
    exact congrArg (List.mapM id) shown

/-- A line is refused for the first character that no token is made of. -/
theorem ofLine_eq_error_iff {e : LexError} : ofLine line = .error e ↔
    line.toList[e.offset]? = some e.character ∧ isKnown e.character = false ∧
      ∀ c ∈ line.toList.take e.offset, isKnown c = true := by
  obtain ⟨runs, rest, whole, tile, closes, value⟩ := exists_ofLine line
  have known := Run.isKnown_of_tile tile
  cases rest with
  | nil =>
    rw [List.append_nil] at whole
    rw [value, whole]
    refine ⟨nofun, ?_⟩
    rintro ⟨found, foreign, -⟩
    cases (known _ (List.mem_of_getElem? found)).symm.trans foreign
  | cons c rest =>
    have foreign := closes c rfl
    rw [value, whole]
    constructor
    · rintro ⟨⟩
      exact ⟨by simp, foreign, by simpa using known⟩
    · rintro ⟨found, other, before⟩
      have here : (Run.concat runs).length = e.offset := by
        rcases Nat.lt_trichotomy (Run.concat runs).length e.offset with less | same | greater
        · have passed : c ∈ (Run.concat runs ++ c :: rest).take e.offset := by
            rw [List.take_append, List.take_of_length_le (Nat.le_of_lt less)]
            obtain ⟨more, enough⟩ := Nat.exists_eq_add_of_lt less
            have positive : e.offset - (Run.concat runs).length = more + 1 := by omega
            rw [positive]
            simp
          cases (before c passed).symm.trans foreign
        · exact same
        · rw [List.getElem?_append_left greater] at found
          cases (known _ (List.mem_of_getElem? found)).symm.trans other
      rw [← here, List.getElem?_append_right (Nat.le_refl _), Nat.sub_self] at found
      cases found
      cases e
      cases here
      rfl

/-- A line is refused exactly if it holds a character that no token is made of. -/
theorem exists_ofLine_eq_error_iff :
    (∃ e, ofLine line = .error e) ↔ ∃ c ∈ line.toList, isKnown c = false := by
  constructor
  · rintro ⟨e, refused⟩
    obtain ⟨found, foreign, -⟩ := ofLine_eq_error_iff.mp refused
    exact ⟨e.character, List.mem_of_getElem? found, foreign⟩
  · rintro ⟨c, mem, foreign⟩
    obtain ⟨runs, rest, whole, tile, -, value⟩ := exists_ofLine line
    cases rest with
    | nil =>
      rw [whole, List.append_nil] at mem
      cases (Run.isKnown_of_tile tile c mem).symm.trans foreign
    | cons d rest => exact ⟨_, value⟩

/-- Written tokens are read as these tokens again, with whatever blank space around them. What a line
is read as are tokens that can be written, and together they are written as the line without its
blank space. A line is refused exactly if it holds a character that no token is made of, and then
for the first one. -/
theorem ofLine_write :
    (∀ pieces last, Spaced.IsSpacing pieces last →
      ofLine (String.ofList (Spaced.write pieces last)) = .ok (pieces.map (·.token))) ∧
    (∀ line tokens, ofLine line = .ok tokens →
      (∀ token ∈ tokens, token.IsLexeme) ∧
        String.join (tokens.map render) = String.ofList (line.toList.filter (!isSpace ·))) ∧
    (∀ line, (∃ e, ofLine line = .error e) ↔ ∃ c ∈ line.toList, isKnown c = false) ∧
    ∀ line e, ofLine line = .error e ↔
      line.toList[e.offset]? = some e.character ∧ isKnown e.character = false ∧
        ∀ c ∈ line.toList.take e.offset, isKnown c = true := by
  refine ⟨fun pieces last spacing => ?_, fun line tokens read => ?_,
    fun _ => exists_ofLine_eq_error_iff, fun _ _ => ofLine_eq_error_iff⟩
  · exact ofLine_eq_ok_iff.mpr ⟨pieces, last, spacing, String.toList_ofList, rfl⟩
  · obtain ⟨pieces, last, spacing, text, rfl⟩ := ofLine_eq_ok_iff.mp read
    refine ⟨fun token mem => ?_, String.toList_inj.mp ?_⟩
    · obtain ⟨piece, here, rfl⟩ := List.mem_map.mp mem
      exact spacing.lexemes piece here
    · rw [text, Spaced.filter_write spacing, String.toList_join, String.toList_ofList,
        List.flatMap_map]

/-- Two integers with a tab between them and a punctuator without blank space, and a line that is
refused behind such tokens. -/
theorem ofLine_write_adjacent :
    ofLine " 12\t007+" = .ok [.integer "12", .integer "007", .punctuator '+'] ∧
      String.join ["12", "007", "+"] = "12007+" ∧
      ofLine "1 % 2 ^" = .error ⟨'%', 2⟩ := by
  obtain ⟨written, read, -, refused⟩ := ofLine_write
  have spaced := written [⟨[' '], .integer "12"⟩, ⟨['\t'], .integer "007"⟩, ⟨[], .punctuator '+'⟩] []
    (by decide)
  exact ⟨spaced, (read _ _ spaced).2,
    (refused _ _).mpr ⟨rfl, rfl, List.all_eq_true.mp (by decide)⟩⟩

/-- The tokens that a line is read as when the blank space is left out. -/
def IsEffective (token : Token) : Prop :=
  (∃ digits, token = .integer digits) ∨ ∃ c ∈ punctuators, token = .punctuator c

theorem IsLexeme.isEffective {token : Token} (lexeme : token.IsLexeme) : token.IsEffective := by
  cases token with
  | space => exact absurd lexeme id
  | integer digits => exact .inl ⟨digits, rfl⟩
  | punctuator c => exact .inr ⟨c, lexeme, rfl⟩

theorem isEffective_of_ofLine {line : String} {tokens : List Token}
    (h : ofLine line = .ok tokens) : ∀ token ∈ tokens, token.IsEffective := by
  obtain ⟨pieces, last, spacing, -, rfl⟩ := ofLine_eq_ok_iff.mp h
  intro token mem
  obtain ⟨piece, here, rfl⟩ := List.mem_map.mp mem
  exact (spacing.lexemes piece here).isEffective

end Token

end CanonicalLR
