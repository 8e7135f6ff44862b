import CanonicalLR.Proofs.Text.Trimming
import CanonicalLR.Proofs.Token.Spacing

/-!
Lines with margins. Not all blank characters are blank space of tokens. A line with such blank space
only in its margins is read as it is without them, an error having as many more characters before it
as stand in the margin in front; other blank characters in the margins are errors themselves.
-/

set_option autoImplicit false
set_option relaxedAutoImplicit false

namespace CanonicalLR

/-- The same error with more characters before it. -/
def LexError.shift (n : Nat) (e : LexError) : LexError := ⟨e.character, e.offset + n⟩

namespace Token

/-- In the margins of a line is blank space of tokens only, unless the margin at the end is behind an
error. -/
def PlainMargins (line : String) : Prop :=
  (∀ c ∈ Text.lead line.toList, isSpace c = true) ∧
    ((∀ c ∈ Text.trail line.toList, isSpace c = true) ∨
      ∃ c ∈ Text.trim line.toList, isKnown c = false)

-- not left to instance search, which can find one that goes through all characters there are
instance (line : String) : Decidable (PlainMargins line) :=
  decidable_of_iff ((Text.lead line.toList).all isSpace = true ∧
    ((Text.trail line.toList).all isSpace = true ∨
      (Text.trim line.toList).any (!isKnown ·) = true)) (by simp [PlainMargins])

/-- The first character of a line that no token is made of is a blank one in its margins. -/
structure IsMarginFault (line : String) (e : LexError) : Prop where
  found : line.toList[e.offset]? = some e.character
  blank : Text.isBlank e.character = true
  foreign : isSpace e.character = false
  first : ∀ c ∈ line.toList.take e.offset, isKnown c = true
  outside : e.offset < (Text.lead line.toList).length ∨
    (Text.lead line.toList).length + (Text.trim line.toList).length ≤ e.offset

/-- The only blank characters that tokens are made of are blank space. -/
private theorem isKnown_of_isBlank {c : Char} (blank : Text.isBlank c = true) :
    isKnown c = isSpace c := by
  have digit : c.isDigit = false := by
    by_contra digit
    have bounds : 48 ≤ c.toNat ∧ c.toNat ≤ 57 := by
      simp only [Bool.not_eq_false, Char.isDigit, Bool.and_eq_true, decide_eq_true_eq,
        UInt32.le_iff_toNat_le, ge_iff_le] at digit
      exact digit
    obtain ⟨range, found⟩ := Option.isSome_iff_exists.mp blank
    obtain ⟨mem, first, last⟩ := Text.Ranges.bounds_of_find? found
    have apart : ∀ range ∈ Text.blankRanges, range.2 < 48 ∨ 57 < range.1 := by decide
    have := apart range mem
    omega
  have punctuator : c ∉ punctuators := by
    intro mem
    have visible : punctuators.all (!Text.isBlank ·) = true := by decide
    simpa [blank] using List.all_eq_true.mp visible c mem
  simp [isKnown, digit, punctuator]

private theorem plainMargins_of_known {line : String}
    (known : ∀ c ∈ line.toList, isKnown c = true) : PlainMargins line := by
  refine ⟨fun c mem => ?_, .inl fun c mem => ?_⟩
  · rw [← isKnown_of_isBlank (Text.isBlank_of_mem_lead mem)]
    exact known c ((List.takeWhile_prefix _).subset mem)
  · rw [← isKnown_of_isBlank (Text.isBlank_of_mem_trail mem)]
    exact known c ((List.rtakeWhile_suffix _ _).subset mem)

section Framed

variable {line core : String} {front back : List Char}
  (framed : line.toList = front ++ (core.toList ++ back))
include framed

private theorem ofLine_eq_ok_of_framed (before : ∀ c ∈ front, isSpace c = true)
    (behind : ∀ c ∈ back, isSpace c = true) {tokens : List Token} (read : ofLine core = .ok tokens) :
    ofLine line = .ok tokens := by
  obtain ⟨pieces, last, spacing, text, rfl⟩ := ofLine_eq_ok_iff.mp read
  have ending : ∀ c ∈ last ++ back, isSpace c = true := fun c mem =>
    (List.mem_append.mp mem).elim (spacing.last c) (behind c)
  cases pieces with
  | nil =>
    refine ofLine_eq_ok_iff.mpr ⟨[], front ++ (last ++ back), Spaced.isSpacing_nil.mpr ?_, ?_, rfl⟩
    · exact fun c mem => (List.mem_append.mp mem).elim (before c) (ending c)
    · rw [framed, text]
      rfl
  | cons piece pieces =>
    obtain ⟨lexeme, gap, apart, rest⟩ := Spaced.isSpacing_cons.mp spacing
    refine ofLine_eq_ok_iff.mpr ⟨⟨front ++ piece.gap, piece.token⟩ :: pieces, last ++ back,
      Spaced.isSpacing_cons.mpr ⟨lexeme, ?_, apart, { rest with last := ending }⟩, ?_, rfl⟩
    · exact fun c mem => (List.mem_append.mp mem).elim (before c) (gap c)
    · rw [framed, text]
      simp [Spaced.write]

private theorem ofLine_eq_error_of_framed (before : ∀ c ∈ front, isKnown c = true) {e : LexError}
    (refused : ofLine core = .error e) : ofLine line = .error (e.shift front.length) := by
  obtain ⟨found, foreign, known⟩ := ofLine_eq_error_iff.mp refused
  obtain ⟨bound, -⟩ := List.getElem?_eq_some_iff.mp found
  refine ofLine_eq_error_iff.mpr ⟨?_, foreign, fun c mem => ?_⟩
  · rw [framed, LexError.shift, List.getElem?_append_right (Nat.le_add_left _ _),
      Nat.add_sub_cancel, List.getElem?_append_left bound]
    exact found
  · rw [framed, LexError.shift, Nat.add_comm, List.take_length_add_append,
      List.take_append_of_le_length (Nat.le_of_lt bound)] at mem
    exact (List.mem_append.mp mem).elim (before c) (known c)

end Framed

variable {line : String} (seen : ¬ Text.IsBlankText line.toList)
include seen

private theorem framed_trimmed : line.toList = Text.lead line.toList ++
    ((Text.trimmed line).toList ++ Text.trail line.toList) := by
  rw [Text.toList_trimmed, Text.lead_append_trim_append_trail seen]

/-- A line with plain margins is read as it is without them. -/
theorem ofLine_of_plainMargins (plain : PlainMargins line) : ofLine line =
    (ofLine (Text.trimmed line)).mapError (LexError.shift (Text.lead line.toList).length) := by
  obtain ⟨before, behind⟩ := plain
  cases read : ofLine (Text.trimmed line) with
  | error e =>
    exact ofLine_eq_error_of_framed (framed_trimmed seen)
      (fun c mem => isKnown_of_isSpace (before c mem)) read
  | ok tokens =>
    refine ofLine_eq_ok_of_framed (framed_trimmed seen) before (behind.resolve_right fun foreign => ?_)
      read
    rw [← Text.toList_trimmed] at foreign
    obtain ⟨e, refused⟩ := exists_ofLine_eq_error_iff.mpr foreign
    cases read.symm.trans refused

/-- The first character that no token is made of is in the margins, unless they are plain. -/
private theorem margin_of_first (other : ¬ PlainMargins line) {e : LexError}
    (found : line.toList[e.offset]? = some e.character) (unknown : isKnown e.character = false)
    (known : ∀ c ∈ line.toList.take e.offset, isKnown c = true) :
    e.character ∈ Text.lead line.toList ∧ e.offset < (Text.lead line.toList).length ∨
      e.character ∈ Text.trail line.toList ∧
        (Text.lead line.toList).length + (Text.trim line.toList).length ≤ e.offset := by
  rw [← Text.lead_append_trim_append_trail seen] at found known
  rcases Nat.lt_or_ge e.offset (Text.lead line.toList).length with front | passed
  · rw [List.getElem?_append_left front] at found
    exact .inl ⟨List.mem_of_getElem? found, front⟩
  · have before : ∀ c ∈ Text.lead line.toList, isSpace c = true := fun c mem => by
      rw [← isKnown_of_isBlank (Text.isBlank_of_mem_lead mem)]
      refine known c ?_
      rw [List.take_append, List.take_of_length_le passed]
      exact List.mem_append_left _ mem
    rw [List.getElem?_append_right passed] at found
    rcases Nat.lt_or_ge (e.offset - (Text.lead line.toList).length)
      (Text.trim line.toList).length with inside | behind
    · rw [List.getElem?_append_left inside] at found
      exact absurd ⟨before, .inr ⟨e.character, List.mem_of_getElem? found, unknown⟩⟩ other
    · rw [List.getElem?_append_right behind] at found
      exact .inr ⟨List.mem_of_getElem? found, by omega⟩

/-- In a line with other margins the first error is a blank character of the margins. -/
theorem exists_error_of_not_plainMargins (other : ¬ PlainMargins line) :
    ∃ e, ofLine line = .error e ∧ IsMarginFault line e := by
  obtain ⟨e, refused⟩ : ∃ e, ofLine line = .error e := by
    refine exists_ofLine_eq_error_iff.mpr ?_
    by_contra! all
    exact other (plainMargins_of_known fun c mem => by simpa using all c mem)
  obtain ⟨found, unknown, known⟩ := ofLine_eq_error_iff.mp refused
  have place := margin_of_first seen other found unknown known
  have blank : Text.isBlank e.character = true := place.elim
    (fun front => Text.isBlank_of_mem_lead front.1) fun back => Text.isBlank_of_mem_trail back.1
  exact ⟨e, refused, found, blank, (isKnown_of_isBlank blank).symm.trans unknown, known,
    place.imp And.right And.right⟩

/-- Only with plain margins a line is read as it is without them. -/
theorem ofLine_eq_shift_iff : ofLine line =
    (ofLine (Text.trimmed line)).mapError (LexError.shift (Text.lead line.toList).length) ↔
      PlainMargins line := by
  refine ⟨fun same => ?_, ofLine_of_plainMargins seen⟩
  by_contra other
  obtain ⟨e, refused, fault⟩ := exists_error_of_not_plainMargins seen other
  rw [refused] at same
  cases read : ofLine (Text.trimmed line) with
  | ok tokens =>
    rw [read] at same
    cases same
  | error e' =>
    rw [read] at same
    obtain rfl := Except.error.inj same
    obtain ⟨found, -, -⟩ := ofLine_eq_error_iff.mp read
    obtain ⟨bound, -⟩ := List.getElem?_eq_some_iff.mp found
    rw [Text.toList_trimmed] at bound
    have place := fault.outside
    simp only [LexError.shift] at place
    omega

end Token

end CanonicalLR
