import CanonicalLR.Text.Characters

/-!
Grammar symbols. A symbol has a name and a kind, but its identity is the name alone: `==` and the
order compare names and nothing else, so two symbols that agree in name and differ in kind stand at
one place of a set. The empty name is that of the empty string's symbol, `$` that of the end mark.
-/

set_option autoImplicit false
set_option relaxedAutoImplicit false

namespace CanonicalLR

inductive SymbolKind where
  | terminal
  | nonTerminal
  deriving DecidableEq

/-- A name with a kind. -/
structure Symbol where
  name : String
  kind : SymbolKind
  deriving DecidableEq

namespace Symbol

/-- Two symbols are the same when their names are. -/
instance : BEq Symbol where
  beq a b := a.name == b.name

/-- Symbols are ordered by name, code point by code point. -/
instance : Ord Symbol where
  compare := compareOn name

instance : Std.TransOrd Symbol := inferInstanceAs (Std.TransCmp (compareOn name))

theorem beq_iff_name_eq {a b : Symbol} : a == b ↔ a.name = b.name := by
  change (a.name == b.name) = true ↔ _
  exact beq_iff_eq

theorem compare_eq_iff_name_eq {a b : Symbol} : compare a b = .eq ↔ a.name = b.name := by
  change compare a.name b.name = .eq ↔ _
  exact Std.LawfulEqCmp.compare_eq_iff_eq

def terminal (name : String) : Symbol := ⟨name, .terminal⟩

def nonTerminal (name : String) : Symbol := ⟨name, .nonTerminal⟩

/-- The kind that a bare name shows: a non-terminal begins with an uppercase character. -/
def kindOfName (name : String) : SymbolKind :=
  match name.toList with
  | [] => .terminal
  | c :: _ => if Text.isUppercase c then .nonTerminal else .terminal

/-- The symbol of a bare name, with the kind that the name shows. -/
def ofName (name : String) : Symbol := ⟨name, kindOfName name⟩

/-- The empty string as a member of FIRST sets. -/
def empty : Symbol := terminal ""

/-- The mark after the last symbol of an input. -/
def endMark : Symbol := terminal "$"

def isTerminal (s : Symbol) : Bool := s.kind == .terminal

def isNonTerminal (s : Symbol) : Bool := s.kind == .nonTerminal

/-- Whether the name is the empty one, in either kind. -/
def isEmpty (s : Symbol) : Bool := s.name == ""

/-- Whether the name is that of the end mark, in either kind. -/
def isEndMark (s : Symbol) : Bool := s.name == "$"

def epsilon : String := "ε"

/-- A symbol is written by its name, the empty one as `ε`. -/
def render (s : Symbol) : String := if s.isEmpty then epsilon else s.name

end Symbol

/-- The text of a string of symbols with a separator between neighbours. -/
def renderSymbols (separator : String) (symbols : List Symbol) : String :=
  separator.intercalate (symbols.map Symbol.render)

end CanonicalLR
