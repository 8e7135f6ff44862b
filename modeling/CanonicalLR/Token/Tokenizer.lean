import CanonicalLR.Token

/-!
A tokenizer that is called for one token after the other. It takes characters one at a time from the
front of those that are left, counts them, and remembers whether it has refused one; from then on it
answers nothing more, whatever is left.

The parts of a line that its tokens are read from are runs, which stand one behind the other. A run of
blank space or of digits is as long as it can be between what stands before and behind it.
-/

set_option autoImplicit false
set_option relaxedAutoImplicit false

namespace CanonicalLR

/-- The characters that are left, the number of those taken, and whether one of them was refused. -/
structure Tokenizer where
  rest : List Char
  offset : Nat
  failed : Bool
  deriving DecidableEq

namespace Tokenizer

def ofLine (line : String) : Tokenizer := ⟨line.toList, 0, false⟩

/-- Takes characters, one at a time and counting them, as long as they are accepted. -/
def takeWhile (accept : Char → Bool) : Nat → List Char → List Char × Tokenizer
  | offset, [] => ([], ⟨[], offset, false⟩)
  | offset, c :: rest =>
    if accept c then
      let (taken, behind) := takeWhile accept (offset + 1) rest
      (c :: taken, behind)
    else ([], ⟨c :: rest, offset, false⟩)

/-- The answer to a call, and the tokenizer after it. -/
def next (t : Tokenizer) : Option (Except LexError Token) × Tokenizer :=
  if t.failed then (none, t)
  else
    match t.rest with
    | [] => (none, t)
    | c :: rest =>
      let offset := t.offset + 1
      if Token.isSpace c then (some (.ok .space), (takeWhile Token.isSpace offset rest).2)
      else if c.isDigit then
        let (digits, behind) := takeWhile Char.isDigit offset rest
        (some (.ok (.integer (String.ofList (c :: digits)))), behind)
      else if Token.punctuators.contains c then
        (some (.ok (.punctuator c)), ⟨rest, offset, false⟩)
      else (some (.error ⟨c, t.offset⟩), ⟨rest, offset, true⟩)

/-- The tokenizer after a number of calls. -/
def after (t : Tokenizer) : Nat → Tokenizer
  | 0 => t
  | calls + 1 => t.next.2.after calls

/-- The answer to a call, by its number from 0 on. -/
def answer (t : Tokenizer) (call : Nat) : Option (Except LexError Token) := (t.after call).next.1

end Tokenizer

/-- The characters that tokens are made of. -/
def Token.isKnown (c : Char) : Bool :=
  Token.isSpace c || c.isDigit || Token.punctuators.contains c

/-- One or more characters with a property; neither the character before them nor the one behind
them has it. -/
structure IsMaximal (p : Char → Bool) (before text behind : List Char) : Prop where
  nonempty : text ≠ []
  inside : ∀ c ∈ text, p c = true
  opens : ∀ c ∈ before.getLast?, p c = false
  closes : ∀ c ∈ behind.head?, p c = false

/-- A token is read from a text that stands between two others. -/
def Token.StandsFor (token : Token) (before text behind : List Char) : Prop :=
  match token with
  | .space => IsMaximal isSpace before text behind
  | .integer digits => digits.toList = text ∧ IsMaximal Char.isDigit before text behind
  | .punctuator c => text = [c] ∧ c ∈ punctuators

/-- A part of a line and the token that it is read as. -/
structure Run where
  token : Token
  text : List Char
  deriving DecidableEq

/-- The text of runs that stand one behind the other. -/
def Run.concat (runs : List Run) : List Char := runs.flatMap (·.text)

/-- Between `before` and `behind` stand these runs. -/
def Run.Tile (before : List Char) (runs : List Run) (behind : List Char) : Prop :=
  ∀ front run back, runs = front ++ run :: back →
    run.token.StandsFor (before ++ Run.concat front) run.text (Run.concat back ++ behind)

end CanonicalLR
