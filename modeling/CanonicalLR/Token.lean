import CanonicalLR.Text.Quoted

/-!
The tokens of arithmetic lines, and reading them one at a time. Blank space and integers are as long
as possible. A character that begins no token is an error, and nothing is read after it.
-/

set_option autoImplicit false
set_option relaxedAutoImplicit false

namespace CanonicalLR

/-- A token: an integer with its digits, a punctuator, or blank space of any length. -/
inductive Token where
  | integer (digits : String)
  | punctuator (character : Char)
  | space
  deriving DecidableEq

namespace Token

/-- The characters that are tokens by themselves. -/
def punctuators : List Char := ['(', ')', '+', '-', '*', '/']

/-- The characters of blank space: space, tab, line feed, carriage return and form feed. -/
def isSpace (c : Char) : Bool := [' ', '\t', '\n', '\r', '\x0c'].contains c

/-- A token is written as it stands in a line, blank space as one space. -/
def render : Token → String
  | .integer digits => digits
  | .punctuator c => String.singleton c
  | .space => " "

end Token

/-- A character that begins no token, and how many characters stand before it. -/
structure LexError where
  character : Char
  offset : Nat
  deriving DecidableEq

def LexError.message (e : LexError) : String :=
  "unexpected character " ++ Text.quoteChar e.character ++ " at offset " ++ toString e.offset

/-- The characters that are still to be read and the number of those before them. -/
structure Scanner where
  rest : List Char
  offset : Nat
  deriving DecidableEq

namespace Scanner

def ofLine (line : String) : Scanner := ⟨line.toList, 0⟩

/-- The scanner behind the longest run of characters that satisfy `p`. -/
def skip (s : Scanner) (p : Char → Bool) : Scanner :=
  ⟨s.rest.dropWhile p, s.offset + (s.rest.takeWhile p).length⟩

/-- The next token or the error that stands in its place, and the scanner behind it. There is
nothing behind an error. -/
def next (s : Scanner) : Option (Except LexError Token × Scanner) :=
  match s.rest with
  | [] => none
  | c :: rest =>
    let behind : Scanner := ⟨rest, s.offset + 1⟩
    if Token.isSpace c then some (.ok .space, behind.skip Token.isSpace)
    else if c.isDigit then
      let digits := c :: rest.takeWhile Char.isDigit
      some (.ok (.integer (String.ofList digits)), behind.skip Char.isDigit)
    else if Token.punctuators.contains c then some (.ok (.punctuator c), behind)
    else some (.error ⟨c, s.offset⟩, ⟨[], s.offset + 1⟩)

private theorem length_skip_le (s : Scanner) (p : Char → Bool) :
    (s.skip p).rest.length ≤ s.rest.length :=
  (List.dropWhile_sublist p).length_le

/-- Something is read at every step. -/
theorem length_lt_of_next {s behind : Scanner} {result : Except LexError Token}
    (h : s.next = some (result, behind)) : behind.rest.length < s.rest.length := by
  unfold next at h
  split at h
  · cases h
  · next c rest found =>
    rw [found, List.length_cons]
    dsimp only at h
    split at h
    · cases h
      exact Nat.lt_succ_of_le (length_skip_le _ _)
    · split at h
      · cases h
        exact Nat.lt_succ_of_le (length_skip_le _ _)
      · split at h <;> cases h
        · exact Nat.lt_succ_self _
        · exact Nat.succ_pos _

/-- All tokens up to the end or the first error, which comes last. -/
def results (s : Scanner) : List (Except LexError Token) :=
  match found : s.next with
  | none => []
  | some (result, behind) =>
    have : behind.rest.length < s.rest.length := length_lt_of_next found
    result :: results behind
termination_by s.rest.length

end Scanner

/-- The tokens of a line without the blank space, or the first error. -/
def Token.ofLine (line : String) : Except LexError (List Token) :=
  ((Scanner.ofLine line).results.mapM id).map fun tokens => tokens.filter (· != .space)

end CanonicalLR
