import CanonicalLR.Grammar.First

/-!
Items: a production with a dot in its right-hand side and a lookahead. What stands before the dot
has been recognised, what stands after it is expected, and after the whole of it the lookahead. Items
with one core differ in nothing but the lookahead.
-/

set_option autoImplicit false
set_option relaxedAutoImplicit false

namespace CanonicalLR

/-- The item `[lhs -> before · after, lookahead]`. -/
structure Item where
  lhs : Symbol
  before : List Symbol
  after : List Symbol
  lookahead : Symbol
  deriving BEq, DecidableEq

namespace Item

def rhs (item : Item) : List Symbol := item.before ++ item.after

def dot (item : Item) : Nat := item.before.length

/-- Items are ordered by left-hand side, right-hand side, dot and lookahead, in this order. -/
instance : Ord Item where
  compare := compareLex (compareOn lhs) <| compareLex (compareOn rhs) <|
    compareLex (compareOn dot) (compareOn lookahead)

instance : Std.TransOrd Item :=
  inferInstanceAs (Std.TransCmp (compareLex (compareOn lhs) <| compareLex (compareOn rhs) <|
    compareLex (compareOn dot) (compareOn lookahead)))

/-- The item of a production with the dot at its start. -/
def initial (lhs : Symbol) (rhs : List Symbol) (lookahead : Symbol) : Item :=
  ⟨lhs, [], rhs, lookahead⟩

/-- The item with a given number of symbols before the dot, if there are so many. -/
def ofDot? (lhs : Symbol) (rhs : List Symbol) (dot : Nat) (lookahead : Symbol) : Option Item :=
  if dot ≤ rhs.length then some ⟨lhs, rhs.take dot, rhs.drop dot, lookahead⟩ else none

def production (item : Item) : Production := ⟨item.lhs, item.rhs⟩

/-- Whether the dot stands at the end. -/
def isComplete (item : Item) : Bool := item.after.isEmpty

def next? (item : Item) : Option Symbol := item.after.head?

/-- The item with the dot one symbol further on. -/
def advance? (item : Item) : Option Item :=
  match item.after with
  | [] => none
  | s :: after => some ⟨item.lhs, item.before ++ [s], after, item.lookahead⟩

/-- The item past a given symbol, if that is the next one. -/
def advanceOver? (symbol : Symbol) (item : Item) : Option Item :=
  if item.next?.any (· == symbol) then item.advance? else none

/-- What may follow from `offset` symbols after the dot on: the rest of the right-hand side, then
the lookahead. -/
def expected (item : Item) (offset : Nat) : List Symbol :=
  item.after.drop offset ++ [item.lookahead]

/-- Whether two items differ in nothing but the lookahead. -/
def sameCore (a b : Item) : Bool := a.lhs == b.lhs && a.before == b.before && a.after == b.after

def renderCore (item : Item) : String :=
  let spaced (symbols : List Symbol) : String :=
    String.join (symbols.map fun s => " " ++ s.render)
  item.lhs.render ++ " ->" ++ spaced item.before ++ " ·" ++ spaced item.after

/-- An item is written as its dotted production, a comma and its lookahead. -/
def render (item : Item) : String := item.renderCore ++ ", " ++ item.lookahead.render

end Item

/-- A production with a dot behind the first `dot` symbols of its right-hand side. -/
structure Core where
  lhs : Symbol
  rhs : List Symbol
  dot : Nat
  deriving DecidableEq

namespace Core

/-- Cores are ordered by left-hand side, right-hand side and dot, in this order. -/
instance : Ord Core where
  compare := compareLex (compareOn lhs) <| compareLex (compareOn rhs) (compareOn dot)

instance : Std.TransOrd Core :=
  inferInstanceAs (Std.TransCmp (compareLex (compareOn lhs) <|
    compareLex (compareOn rhs) (compareOn dot)))

/-- A core is written in words with a space between neighbours: the left-hand side, an arrow, and the
symbols of the right-hand side with the dot among them. -/
def render (core : Core) : String :=
  let body := (core.rhs.map Symbol.render).insertIdx core.dot "·"
  " ".intercalate (core.lhs.render :: "->" :: body)

end Core

def Item.core (item : Item) : Core := ⟨item.lhs, item.rhs, item.dot⟩

end CanonicalLR
