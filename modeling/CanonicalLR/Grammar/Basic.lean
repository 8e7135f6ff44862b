import CanonicalLR.OrderedSet
import CanonicalLR.SymbolMap

/-!
Context-free grammars. The productions are a set, in ascending order of left-hand side and then
right-hand side; no right-hand side holds the empty symbol. Two further parts are filled in on
demand and stay as they are until they are computed again: the FIRST sets and the rule numbers,
which count the productions in their order.

Augmentation adds a new start symbol with a single production, whose right-hand side is the start
symbol before. Its name is the name before with as many primes as make it one that no production uses.
-/

set_option autoImplicit false
set_option relaxedAutoImplicit false

namespace CanonicalLR

/-- A production `lhs -> rhs`. -/
structure Production where
  lhs : Symbol
  rhs : List Symbol
  deriving BEq, DecidableEq

namespace Production

/-- Productions are ordered by left-hand side, then by right-hand side. -/
instance : Ord Production where
  compare := compareLex (compareOn lhs) (compareOn rhs)

instance : Std.TransOrd Production :=
  inferInstanceAs (Std.TransCmp (compareLex (compareOn lhs) (compareOn rhs)))

end Production

/-- The sets FIRST(X) that have been computed, by symbol. -/
abbrev FirstTable := SymbolMap (OrderedSet Symbol)

/-- A grammar with its FIRST sets and its rule numbers, as far as they have been computed. -/
structure Grammar where
  start : Symbol
  productions : OrderedSet Production
  firstTable : FirstTable
  rules : List Production
  visible : ∀ production ∈ productions, ∀ s ∈ production.rhs, s.isEmpty = false
  deriving DecidableEq

namespace Grammar

instance : BEq Grammar where
  beq g h :=
    g.start == h.start && g.productions == h.productions &&
      g.firstTable == h.firstTable && g.rules == h.rules

/-- The grammar without productions. -/
def ofStart (start : Symbol) : Grammar where
  start := start
  productions := .empty
  firstTable := .empty
  rules := []
  visible := nofun

/-- The symbol that stands on left-hand sides under the name of `lhs`, or `lhs` itself if the name
is not among them. -/
def leftHandSide (g : Grammar) (lhs : Symbol) : Symbol :=
  match g.productions.toList.find? (·.lhs == lhs) with
  | some production => production.lhs
  | none => lhs

/-- Adds a production, less the empty symbols of its right-hand side. -/
def push (g : Grammar) (lhs : Symbol) (rhs : List Symbol) : Grammar where
  start := g.start
  productions := g.productions.insert ⟨g.leftHandSide lhs, rhs.filter (!·.isEmpty)⟩
  firstTable := g.firstTable
  rules := g.rules
  visible production mem s hs := by
    rcases OrderedSet.eq_or_mem_of_mem_insert mem with rfl | mem
    · simpa using (List.mem_filter.mp hs).2
    · exact g.visible production mem s hs

def pushAll (g : Grammar) (lhs : Symbol) (alternatives : List (List Symbol)) : Grammar :=
  alternatives.foldl (·.push lhs) g

def leftHandSides (g : Grammar) : OrderedSet Symbol :=
  .ofList (g.productions.toList.map (·.lhs))

def alternatives (g : Grammar) (lhs : Symbol) : List (List Symbol) :=
  (g.productions.toList.filter (·.lhs == lhs)).map (·.rhs)

/-- The symbols of all right-hand sides, in order and with repetitions. -/
def occurrences (g : Grammar) : List Symbol := g.productions.toList.flatMap (·.rhs)

def terminals (g : Grammar) : OrderedSet Symbol := .ofList (g.occurrences.filter (·.isTerminal))

/-- The left-hand sides and the non-terminals that occur. -/
def nonTerminals (g : Grammar) : OrderedSet Symbol :=
  g.leftHandSides.insertAll (g.occurrences.filter (·.isNonTerminal))

def hasEmptyProduction (g : Grammar) : Bool := g.productions.toList.any (·.rhs.isEmpty)

/-- Whether a name stands on a left-hand side or in a right-hand side. -/
def uses (g : Grammar) (s : Symbol) : Bool :=
  g.productions.toList.any fun production => s == production.lhs || production.rhs.any (s == ·)

/-- Whether the start symbol has one production only, and that one a single symbol. -/
def isAugmented (g : Grammar) : Bool :=
  match g.alternatives g.start with
  | [[_]] => true
  | _ => false

/-- Numbers the productions afresh, in their order. -/
def numberRules (g : Grammar) : Grammar := { g with rules := g.productions.toList }

def rule? (g : Grammar) (number : Nat) : Option Production := g.rules[number]?

def ruleNumber? (g : Grammar) (production : Production) : Option Nat :=
  g.rules.findIdx? (· == production)

/-- What occurs in a right-hand side is not the empty symbol. -/
theorem isEmpty_of_mem_occurrences {g : Grammar} {s : Symbol} (h : s ∈ g.occurrences) :
    s.isEmpty = false := by
  obtain ⟨production, mem, hs⟩ := List.mem_flatMap.mp h
  exact g.visible production mem s hs

/-- The start name with `primes` primes after it. -/
def primedStart (g : Grammar) (primes : Nat) : Symbol :=
  .nonTerminal (g.start.name ++ String.ofList (List.replicate primes '\''))

/-- The number of names that productions use, with repetitions. -/
def usedCount (g : Grammar) : Nat := g.productions.size + g.occurrences.length

/-- The least positive number of primes that makes the start name one that no production uses.
Among one more candidates than there are used names, one is free. -/
def freshPrimes (g : Grammar) : Nat :=
  let free := (List.range (g.usedCount + 1)).find? fun i => !g.uses (g.primedStart (i + 1))
  free.getD 0 + 1

/-- The start name with the least number of primes that makes it an unused name. -/
def freshStart (g : Grammar) : Symbol := g.primedStart g.freshPrimes

/-- Adds the production of a fresh start symbol to the start symbol, and starts there. -/
def augment (g : Grammar) : Grammar :=
  { g.push g.freshStart [g.start] with start := g.freshStart }

@[simp] theorem start_augment (g : Grammar) : g.augment.start = g.freshStart := rfl

end Grammar

end CanonicalLR
