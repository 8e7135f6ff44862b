import CanonicalLR.Item
import CanonicalLR.OrderedSet

/-!
Sets of items. In their order, items with one core stand next to each other, ordered by their
lookaheads; a set is written by its cores, or item by item, where an item is compared with the one
before it only.

An item with a non-terminal `B` after its dot predicts every production of `B`, with each lookahead
that can follow there; a set is closed when it holds all that its items predict.
-/

set_option autoImplicit false
set_option relaxedAutoImplicit false

namespace CanonicalLR

abbrev ItemSet := OrderedSet Item

namespace ItemSet

/-- The symbols that stand after a dot. -/
def nextSymbols (set : ItemSet) : OrderedSet Symbol :=
  .ofList (set.toList.filterMap Item.next?)

/-- One line for the items of a core: the dotted production and all their lookaheads. -/
def renderGroup : List Item → String
  | [] => ""
  | item :: items =>
    item.renderCore ++ ", " ++ renderSymbols " " ((item :: items).map (·.lookahead))

/-- A set is written with one line for every core. -/
def render (set : ItemSet) : String :=
  "\n".intercalate ((set.toList.splitBy Item.sameCore).map renderGroup)

end ItemSet

/-- The items that an item predicts: for `[A -> α · B β, a]` and every `b` in FIRST(`β a`), the
productions of `B` with the dot at their start and the lookahead `b`. -/
def Item.predictions (g : Grammar) (item : Item) : List Item :=
  match item.next? with
  | none => []
  | some next =>
    if next.isNonTerminal then
      (g.first (item.expected 1)).toList.flatMap fun lookahead =>
        (g.alternatives next).map fun rhs => .initial next rhs lookahead
    else []

namespace ItemSet

def predict (g : Grammar) (set : ItemSet) : ItemSet :=
  set.insertAll (set.toList.flatMap (·.predictions g))

/-- A number that the lookaheads of predicted items cannot exceed: the symbols of FIRST sets and the
empty symbol. -/
def lookaheadLimit (g : Grammar) : Nat :=
  (g.firstTable.toList.flatMap fun entry => entry.2.toList).length + 1

/-- The closure of a set. Every round but the last predicts a new item. -/
def closure (g : Grammar) (set : ItemSet) : ItemSet :=
  settle (predict g) (g.productions.size * lookaheadLimit g + 1) set

/-- The items of a set past a symbol. -/
def advanceOver (symbol : Symbol) (set : ItemSet) : ItemSet :=
  OrderedSet.empty.insertAll (set.toList.filterMap (Item.advanceOver? symbol))

/-- The state after a symbol: the items past it, closed. -/
def goto (g : Grammar) (set : ItemSet) (symbol : Symbol) : ItemSet :=
  (set.advanceOver symbol).closure g

end ItemSet

/-- All symbols of an item. -/
def Item.symbols (item : Item) : List Symbol := item.lhs :: (item.rhs ++ [item.lookahead])

namespace ItemSet

/-- The cores of the items. -/
def cores (set : ItemSet) : OrderedSet Core := set.keys Item.core

/-- The lookaheads of the items with a certain core. -/
def lookaheadsOf (set : ItemSet) (core : Core) : OrderedSet Symbol :=
  .ofList ((set.withKey Item.core core).map (·.lookahead))

/-- The line of a core: the dotted production, a comma, and the lookaheads with spaces between
them. -/
def line (set : ItemSet) (core : Core) : String :=
  core.render ++ ", " ++ renderSymbols " " (set.lookaheadsOf core).toList

/-- What is written for an item: the whole of it if it is the first one, its lookahead if it has the
core of the item before it, and else the whole of it on a new line. -/
def writeNext (last : Option Item) (item : Item) : String :=
  match last with
  | none => item.render
  | some last =>
    if last.sameCore item then " " ++ item.lookahead.render else "\n" ++ item.render

def writeFrom : Option Item → List Item → String
  | _, [] => ""
  | last, item :: items => writeNext last item ++ writeFrom (some item) items

/-- The set written item by item. -/
def write (set : ItemSet) : String := writeFrom none set.toList

end ItemSet

end CanonicalLR
