import CanonicalLR.Grammar.Basic
import CanonicalLR.Grammar.First
import CanonicalLR.Symbol
import CanonicalLR.Text.Characters
import CanonicalLR.Text.Quoted
import CanonicalLR.Text.Split

/-!
Grammars as text. Lines of blank characters do not count. The first other line is the start symbol;
each one after it has the form `A -> α | β`, where the alternatives are separated by ` | `, their
symbols by spaces, and `ε` stands for no symbol. A name that begins with an uppercase character is a
non-terminal. Rules are written in the same form, each on a line of its own, and several may have the
same left-hand side. A grammar is printed in another form, for a reader.
-/

set_option autoImplicit false
set_option relaxedAutoImplicit false

namespace CanonicalLR

/-- A production is written as `lhs -> rhs`, an empty right-hand side as `ε`. -/
def Production.render (production : Production) : String :=
  let rhs := if production.rhs.isEmpty then [.empty] else production.rhs
  production.lhs.render ++ " -> " ++ renderSymbols " " rhs

namespace Grammar

/-- Symbols between braces, separated by commas. -/
private def renderBraced (symbols : List Symbol) : String :=
  "\x7b" ++ renderSymbols ", " symbols ++ "\x7d"

/-- One line of the list of productions: the rule number, or a dash without one, and the
production. -/
def renderRule (g : Grammar) (production : Production) : String :=
  let number := match g.ruleNumber? production with
    | some number => toString number
    | none => "-"
  "  (" ++ number ++ ") " ++ production.render ++ "\n"

/-- A grammar is written with its start symbol, its symbols and its productions. -/
def render (g : Grammar) : String :=
  "StartSymbol: " ++ g.start.render ++ "\n" ++
  "Terminals: " ++ renderBraced g.terminals.toList ++ "\n" ++
  "NonTerminals: " ++ renderBraced g.nonTerminals.toList ++ "\n" ++
  "Productions: \x7b\n" ++ String.join (g.productions.toList.map g.renderRule) ++ "\x7d"

end Grammar

/-- Why a text is not a grammar; lines are counted from 1, blank ones too. -/
inductive ReadError where
  /-- There is no line that is not blank. -/
  | empty
  /-- A line has no `->`. -/
  | missingSeparator (line : Nat) (text : String)
  /-- The text before `->` is not the name of a non-terminal. -/
  | invalidLeftHandSide (line : Nat) (lhs : String)
  deriving DecidableEq

def ReadError.message : ReadError → String
  | .empty => "grammar text is empty"
  | .missingSeparator line text =>
    "line " ++ toString line ++ ": missing `->` separator in " ++ Text.quote text.toList
  | .invalidLeftHandSide line lhs =>
    "line " ++ toString line ++ ": left-hand side " ++ Text.quote lhs.toList ++
      " is not a non-terminal"

namespace Grammar

/-- The lines that are not blank, without the blank characters at their ends, and their numbers. -/
def contentLines (text : List Char) : List (List Char × Nat) :=
  (((Text.lines text).map Text.trimEnd).zipIdx 1).filter fun line => !line.1.isEmpty

def readAlternative (text : List Char) : List Symbol :=
  let names := (Text.splitAt ' ' text).map String.ofList
  (names.filter fun name => name != "" && name != Symbol.epsilon).map Symbol.ofName

def readAlternatives (text : List Char) : List (List Symbol) :=
  (Text.splitOn ' ' ['|', ' '] text).map readAlternative

/-- The left-hand side and the right-hand sides of a line. -/
def readRule (line : List Char × Nat) : Except ReadError (Symbol × List (List Symbol)) :=
  match Text.cut ['-', '>'] line.1 with
  | none => .error (.missingSeparator line.2 (String.ofList line.1))
  | some (before, after) =>
    let name := Text.trim before
    let lhs := Symbol.ofName (String.ofList name)
    if name.any Text.isBlank || lhs.isTerminal then
      .error (.invalidLeftHandSide line.2 lhs.name)
    else .ok (lhs, readAlternatives after)

def readLine (g : Grammar) (line : List Char × Nat) : Except ReadError Grammar :=
  (readRule line).map fun (lhs, alternatives) => g.pushAll lhs alternatives

/-- Reads a grammar. The first line that is at fault decides the error. -/
def read (text : String) : Except ReadError Grammar :=
  match contentLines text.toList with
  | [] => .error .empty
  | (start, _) :: lines =>
    lines.foldlM readLine (.ofStart (.nonTerminal (String.ofList (Text.trim start))))

/-- The symbols of an alternative with spaces between them, or `ε` if there are none. -/
def writeAlternative (rhs : List Symbol) : String :=
  renderSymbols " " (if rhs.isEmpty then [.empty] else rhs)

/-- A left-hand side with its alternatives, which are separated by ` | `. -/
def writeRule (rule : Symbol × List (List Symbol)) : String :=
  rule.1.render ++ " -> " ++ " | ".intercalate (rule.2.map writeAlternative)

def write (start : Symbol) (rules : List (Symbol × List (List Symbol))) : String :=
  "\n".intercalate (start.render :: rules.map writeRule)

end Grammar

end CanonicalLR
