import CanonicalLR.Proofs.Text.Split
import CanonicalLR.Token.Tokenizer
import Mathlib.Data.List.TakeWhile

/-!
Lines are read as runs. One step of the scanner reads the run at the front of what is left, so all of
its steps cut the line into runs up to the first character that no token is made of; the tokenizer's
calls answer with the tokens of these runs, then with that character and its place, then with nothing.
-/

set_option autoImplicit false
set_option relaxedAutoImplicit false

namespace CanonicalLR

namespace Token

theorem isDigit_of_isSpace {c : Char} (h : isSpace c = true) : c.isDigit = false := by
  simp only [isSpace, List.contains_eq_mem, decide_eq_true_eq, List.mem_cons, List.not_mem_nil,
    or_false] at h
  rcases h with rfl | rfl | rfl | rfl | rfl <;> rfl

theorem classes_of_mem_punctuators {c : Char} (h : c ∈ punctuators) :
    isSpace c = false ∧ c.isDigit = false := by
  simp only [punctuators, List.mem_cons, List.not_mem_nil, or_false] at h
  rcases h with rfl | rfl | rfl | rfl | rfl | rfl <;> exact ⟨rfl, rfl⟩

theorem isKnown_of_isSpace {c : Char} (h : isSpace c = true) : isKnown c = true := by
  simp [isKnown, h]

theorem isKnown_of_isDigit {c : Char} (h : c.isDigit = true) : isKnown c = true := by
  simp [isKnown, h]

theorem isKnown_of_mem_punctuators {c : Char} (h : c ∈ punctuators) : isKnown c = true := by
  simp [isKnown, h]

/-- The two classes of characters whose runs are as long as possible. -/
private def classes : List (Char → Bool) := [isSpace, Char.isDigit]

private theorem eq_of_classes {p q : Char → Bool} (hp : p ∈ classes) (hq : q ∈ classes) {c : Char}
    (left : p c = true) (right : q c = true) : p = q := by
  simp only [classes, List.mem_cons, List.not_mem_nil, or_false] at hp hq
  rcases hp with rfl | rfl <;> rcases hq with rfl | rfl
  · rfl
  · cases right.symm.trans (isDigit_of_isSpace left)
  · cases left.symm.trans (isDigit_of_isSpace right)
  · rfl

/-- No run goes on from one text to the next. -/
private def Boundary (before behind : List Char) : Prop :=
  ∀ p ∈ classes, ∀ c ∈ before.getLast?, ∀ d ∈ behind.head?, p c = true → p d = false

/-- The longest run from a boundary on is as long as possible, and there is a boundary behind it. -/
private theorem isMaximal_of_boundary {p : Char → Bool} (hp : p ∈ classes)
    {before rest : List Char} {c : Char} (here : p c = true)
    (boundary : Boundary before (c :: rest)) :
    IsMaximal p before (c :: rest.takeWhile p) (rest.dropWhile p) ∧
      Boundary (before ++ c :: rest.takeWhile p) (rest.dropWhile p) := by
  have inside : ∀ d ∈ c :: rest.takeWhile p, p d = true :=
    List.forall_mem_cons.mpr ⟨here, fun d mem => List.mem_takeWhile_imp mem⟩
  have closes : ∀ d ∈ (rest.dropWhile p).head?, p d = false := by
    intro d head
    have stops := List.head?_dropWhile_not p rest
    rwa [Option.mem_def.mp head] at stops
  have opens : ∀ d ∈ before.getLast?, p d = false := by
    intro d last
    by_contra joined
    cases here.symm.trans (boundary p hp d last c rfl (by simpa using joined))
  refine ⟨⟨List.cons_ne_nil _ _, inside, opens, closes⟩, fun q hq e last d head seen => ?_⟩
  have ends : (c :: rest.takeWhile p).getLast? = some e := by
    rwa [List.getLast?_append, List.getLast?_cons, Option.some_or, ← List.getLast?_cons] at last
  have same := eq_of_classes hp hq (inside e (List.mem_of_getLast? ends)) seen
  exact same ▸ closes d head

end Token

namespace Scanner

variable {before text rest : List Char}

/-- The token of a text is read, and nothing of what is behind it. -/
theorem next_of_standsFor {token : Token} (stands : token.StandsFor before text rest)
    (offset : Nat) :
    (⟨text ++ rest, offset⟩ : Scanner).next = some (.ok token, ⟨rest, offset + text.length⟩) := by
  cases token with
  | space =>
    obtain ⟨nonempty, inside, -, closes⟩ := stands
    obtain ⟨c, text, rfl⟩ := List.exists_cons_of_ne_nil nonempty
    obtain ⟨here, others⟩ := List.forall_mem_cons.mp inside
    obtain ⟨taken, left⟩ := Text.span_append others closes
    simp only [List.cons_append, next, here, if_true, skip, taken, left, List.length_cons]
    rw [Nat.add_right_comm, Nat.add_assoc]
  | integer digits =>
    obtain ⟨spelled, nonempty, inside, -, closes⟩ := stands
    obtain ⟨c, text, rfl⟩ := List.exists_cons_of_ne_nil nonempty
    obtain ⟨here, others⟩ := List.forall_mem_cons.mp inside
    obtain ⟨taken, left⟩ := Text.span_append others closes
    have visible : Token.isSpace c = false := by
      by_contra space
      cases here.symm.trans (Token.isDigit_of_isSpace (by simpa using space))
    simp only [List.cons_append, next, visible, here, if_true, skip, taken, left,
      List.length_cons, Bool.false_eq_true, if_false]
    rw [← spelled, String.ofList_toList, Nat.add_right_comm, Nat.add_assoc]
  | punctuator c =>
    obtain ⟨rfl, known⟩ := stands
    obtain ⟨visible, other⟩ := Token.classes_of_mem_punctuators known
    simp [next, visible, other, known]

/-- What a step reads from a boundary on is the token of the text up to the next scanner. -/
private theorem standsFor_of_next {s behind : Scanner} {token : Token}
    (boundary : Token.Boundary before s.rest) (h : s.next = some (.ok token, behind)) :
    ∃ text, s.rest = text ++ behind.rest ∧ behind.offset = s.offset + text.length ∧
      token.StandsFor before text behind.rest ∧ Token.Boundary (before ++ text) behind.rest := by
  unfold next at h
  split at h
  · cases h
  · next c rest found =>
    rw [found] at boundary ⊢
    dsimp only at h
    split at h
    · next space =>
      cases h
      obtain ⟨maximal, boundary⟩ := Token.isMaximal_of_boundary (List.mem_cons_self ..) space boundary
      refine ⟨c :: rest.takeWhile Token.isSpace, ?_, ?_, maximal, boundary⟩
      · simp [skip]
      · simp only [skip, List.length_cons]
        omega
    · split at h
      · next digit =>
        cases h
        have hp : Char.isDigit ∈ Token.classes := List.mem_cons_of_mem _ (List.mem_cons_self ..)
        obtain ⟨maximal, boundary⟩ := Token.isMaximal_of_boundary hp digit boundary
        refine ⟨c :: rest.takeWhile Char.isDigit, ?_, ?_, ⟨String.toList_ofList, maximal⟩, boundary⟩
        · simp [skip]
        · simp only [skip, List.length_cons]
          omega
      · split at h
        · next known =>
          cases h
          have mem : c ∈ Token.punctuators := by simpa using known
          refine ⟨[c], rfl, rfl, ⟨rfl, mem⟩, fun p hp e last d head seen => ?_⟩
          obtain ⟨visible, other⟩ := Token.classes_of_mem_punctuators mem
          rw [List.getLast?_concat] at last
          cases last
          simp only [Token.classes, List.mem_cons, List.not_mem_nil, or_false] at hp
          rcases hp with rfl | rfl
          · cases visible.symm.trans seen
          · cases other.symm.trans seen
        · cases h

/-- A step is refused by the first character, if no token is made of it. -/
theorem next_eq_error_iff {s behind : Scanner} {e : LexError} :
    s.next = some (.error e, behind) ↔ ∃ c rest, s.rest = c :: rest ∧ Token.isKnown c = false ∧
      e = ⟨c, s.offset⟩ ∧ behind = ⟨[], s.offset + 1⟩ := by
  unfold next
  split
  · next found => simp [found]
  · next c rest found =>
    dsimp only
    split
    · next space => simp [found, Token.isKnown_of_isSpace space]
    · next visible =>
      split
      · next digit => simp [found, Token.isKnown_of_isDigit digit]
      · next other =>
        split
        · next known => simp [found, Token.isKnown_of_mem_punctuators (by simpa using known)]
        · next unknown =>
          have foreign : Token.isKnown c = false := by
            simpa [Token.isKnown, and_assoc] using And.intro visible (And.intro other unknown)
          constructor
          · rintro ⟨⟩
            exact ⟨c, rest, found, foreign, rfl, rfl⟩
          · rintro ⟨c, rest, same, -, rfl, rfl⟩
            cases found.symm.trans same
            rfl

theorem results_of_next {s behind : Scanner} {result : Except LexError Token}
    (h : s.next = some (result, behind)) : s.results = result :: behind.results := by
  rw [results]
  split
  · next found => cases found.symm.trans h
  · next found =>
    cases found.symm.trans h
    rfl

theorem results_eq_nil {s : Scanner} (h : s.next = none) : s.results = [] := by
  rw [results]
  split
  · rfl
  · next found => cases found.symm.trans h

theorem next_eq_none_iff {s : Scanner} : s.next = none ↔ s.rest = [] := by
  unfold next
  split
  · next found => simp [found]
  · next c rest found =>
    dsimp only
    split
    · simp [found]
    · split
      · simp [found]
      · split <;> simp [found]

end Scanner

namespace Run

variable {before behind : List Char} {run : Run} {runs : List Run}

theorem tile_nil : Tile before [] behind := fun front run back h => by simp at h

theorem tile_cons : Tile before (run :: runs) behind ↔
    run.token.StandsFor before run.text (concat runs ++ behind) ∧
      Tile (before ++ run.text) runs behind := by
  constructor
  · intro tile
    refine ⟨by simpa [concat] using tile [] run runs rfl, fun front other back whole => ?_⟩
    have later := tile (run :: front) other back (by rw [whole]; rfl)
    rwa [concat, List.flatMap_cons, ← List.append_assoc] at later
  · rintro ⟨first, later⟩ front other back whole
    cases front with
    | nil =>
      cases whole
      simpa [concat] using first
    | cons head front =>
      obtain ⟨rfl, rest⟩ := List.cons_eq_cons.mp whole
      have stands := later front other back rest
      rwa [List.append_assoc] at stands

private theorem isKnown_of_standsFor {token : Token} {text : List Char}
    (stands : token.StandsFor before text behind) : ∀ c ∈ text, Token.isKnown c = true := by
  cases token with
  | space => exact fun c mem => Token.isKnown_of_isSpace (stands.inside c mem)
  | integer digits => exact fun c mem => Token.isKnown_of_isDigit (stands.2.inside c mem)
  | punctuator c =>
    obtain ⟨rfl, known⟩ := stands
    simpa using Token.isKnown_of_mem_punctuators known

/-- Runs are made of the characters that tokens are made of. -/
theorem isKnown_of_tile (tile : Tile before runs behind) :
    ∀ c ∈ concat runs, Token.isKnown c = true := by
  induction runs generalizing before with
  | nil => exact nofun
  | cons run runs ih =>
    obtain ⟨first, later⟩ := tile_cons.mp tile
    intro c mem
    rw [concat, List.flatMap_cons, List.mem_append] at mem
    exact mem.elim (isKnown_of_standsFor first c) (ih later c)

private theorem exists_tile_of_boundary (s : Scanner) (boundary : Token.Boundary before s.rest) :
    ∃ runs rest, s.rest = concat runs ++ rest ∧ Tile before runs rest ∧
      ∀ c ∈ rest.head?, Token.isKnown c = false := by
  induction s using Scanner.results.induct generalizing before with
  | case1 s none => exact ⟨[], [], Scanner.next_eq_none_iff.mp none, tile_nil, nofun⟩
  | case2 s result behind found shorter ih =>
    cases result with
    | error e =>
      obtain ⟨c, rest, whole, foreign, -, -⟩ := Scanner.next_eq_error_iff.mp found
      refine ⟨[], c :: rest, whole, tile_nil, ?_⟩
      simpa using foreign
    | ok token =>
      obtain ⟨text, whole, -, stands, boundary⟩ := Scanner.standsFor_of_next boundary found
      obtain ⟨runs, rest, same, tile, closes⟩ := ih boundary
      refine ⟨⟨token, text⟩ :: runs, rest, ?_, tile_cons.mpr ⟨same ▸ stands, tile⟩, closes⟩
      rw [whole, same, concat, concat, List.flatMap_cons, List.append_assoc]

/-- A text is cut into runs up to its first character that no token is made of. -/
theorem exists_tile (text : List Char) : ∃ runs rest, text = concat runs ++ rest ∧
    Tile [] runs rest ∧ ∀ c ∈ rest.head?, Token.isKnown c = false :=
  exists_tile_of_boundary ⟨text, 0⟩ (nofun : Token.Boundary [] text)

/-- What is reported about a text that begins with a character that no token is made of. -/
def refusal (rest : List Char) (offset : Nat) : List (Except LexError Token) :=
  rest.head?.toList.map fun c => .error ⟨c, offset⟩

/-- The scanner reads the tokens of the runs and is refused by the character behind them. -/
theorem results_of_tile (tile : Tile before runs behind)
    (closes : ∀ c ∈ behind.head?, Token.isKnown c = false) (offset : Nat) :
    (⟨concat runs ++ behind, offset⟩ : Scanner).results =
      runs.map (fun run => .ok run.token) ++ refusal behind (offset + (concat runs).length) := by
  induction runs generalizing before offset with
  | nil =>
    cases behind with
    | nil => exact Scanner.results_eq_nil rfl
    | cons c behind =>
      have refused : (⟨c :: behind, offset⟩ : Scanner).next =
          some (.error ⟨c, offset⟩, ⟨[], offset + 1⟩) :=
        Scanner.next_eq_error_iff.mpr ⟨c, behind, rfl, closes c rfl, rfl, rfl⟩
      exact (Scanner.results_of_next refused).trans (congrArg _ (Scanner.results_eq_nil rfl))
  | cons run runs ih =>
    obtain ⟨first, later⟩ := tile_cons.mp tile
    have read := Scanner.next_of_standsFor first offset
    rw [← List.append_assoc] at read
    have next := Scanner.results_of_next read
    rw [concat, List.flatMap_cons]
    refine next.trans ?_
    rw [ih later, List.map_cons, List.cons_append, List.length_append, Nat.add_assoc]
    rfl

end Run

namespace Tokenizer

/-- What a tokenizer has still to read, as a scanner. -/
def scanner (t : Tokenizer) : Scanner := if t.failed then ⟨[], t.offset⟩ else ⟨t.rest, t.offset⟩

private theorem takeWhile_eq (accept : Char → Bool) (offset : Nat) (text : List Char) :
    takeWhile accept offset text = (text.takeWhile accept,
      ⟨text.dropWhile accept, offset + (text.takeWhile accept).length, false⟩) := by
  induction text generalizing offset with
  | nil => rfl
  | cons c text ih =>
    unfold takeWhile
    split
    · next here =>
      rw [ih, List.takeWhile_cons_of_pos here, List.dropWhile_cons_of_pos here, List.length_cons,
        Nat.add_right_comm]
      rfl
    · next other =>
      rw [List.takeWhile_cons_of_neg other, List.dropWhile_cons_of_neg other]
      rfl

/-- A call answers what the scanner reads next, and leaves the scanner behind that. -/
theorem next_scanner (t : Tokenizer) :
    t.next = (none, t) ∧ t.scanner.next = none ∨
      ∃ result behind, t.next = (some result, behind) ∧
        t.scanner.next = some (result, behind.scanner) := by
  obtain ⟨rest, offset, failed⟩ := t
  cases failed with
  | true => exact .inl ⟨rfl, rfl⟩
  | false =>
    cases rest with
    | nil => exact .inl ⟨rfl, rfl⟩
    | cons c rest =>
      right
      simp only [next, scanner, Scanner.next, takeWhile_eq, Bool.false_eq_true, if_false]
      split
      · exact ⟨_, _, rfl, rfl⟩
      · split
        · exact ⟨_, _, rfl, rfl⟩
        · split
          · exact ⟨_, _, rfl, rfl⟩
          · exact ⟨_, _, rfl, rfl⟩

/-- The answers to the calls are what the scanner reads, then nothing. -/
theorem answer_eq_getElem? (t : Tokenizer) (call : Nat) : t.answer call = t.scanner.results[call]? := by
  induction call generalizing t with
  | zero =>
    rcases t.next_scanner with ⟨answers, ends⟩ | ⟨result, behind, answers, reads⟩
    · rw [Scanner.results_eq_nil ends]
      exact congrArg Prod.fst answers
    · rw [Scanner.results_of_next reads]
      exact congrArg Prod.fst answers
  | succ call ih =>
    have later : t.answer (call + 1) = t.next.2.answer call := rfl
    rw [later, ih]
    rcases t.next_scanner with ⟨answers, ends⟩ | ⟨result, behind, answers, reads⟩
    · rw [answers, Scanner.results_eq_nil ends]
      rfl
    · rw [answers, Scanner.results_of_next reads]
      rfl

/-- A line is cut into runs up to the first character that no token is made of. The calls are
answered with the tokens of the runs in order, then with that character, if there is one, and the
number of the characters before it, and then with nothing, ever. -/
theorem answer_of_line (line : String) : ∃ runs : List Run,
    Run.concat runs = line.toList.takeWhile Token.isKnown ∧
    Run.Tile [] runs (line.toList.dropWhile Token.isKnown) ∧
    (∀ call, (ofLine line).answer call =
      ((runs.map fun run => .ok run.token) ++
        Run.refusal (line.toList.dropWhile Token.isKnown) (Run.concat runs).length)[call]?) ∧
    ∀ call, (ofLine line).answer call = (Scanner.ofLine line).results[call]? := by
  obtain ⟨runs, rest, text, tile, closes⟩ := Run.exists_tile line.toList
  obtain ⟨known, left⟩ := Text.span_append (Run.isKnown_of_tile tile) closes
  have results := Run.results_of_tile tile closes 0
  rw [Nat.zero_add] at results
  rw [text, known, left]
  refine ⟨runs, rfl, tile, fun call => ?_, fun call => answer_eq_getElem? _ call⟩
  rw [answer_eq_getElem?, ← results, ← text]
  rfl

end Tokenizer

end CanonicalLR
