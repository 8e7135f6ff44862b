import CanonicalLR.Grammar.Basic

/-!
FIRST sets: of a symbol or a string of symbols, the terminals that strings derived from it begin
with, and the empty symbol if it derives the empty string. The table of a grammar is the fixed point
of rounds over the productions, each of which adds FIRST of the right-hand side to FIRST of the
left-hand side.

A step is repeated until it changes nothing, within a bound on the number of steps. What every step
keeps holds of the result, and if every step that changes something raises a bounded measure, then
enough steps lead to a result that the step does not change.
-/

set_option autoImplicit false
set_option relaxedAutoImplicit false

namespace CanonicalLR

section Settle

universe u

variable {α : Type u} [BEq α]

/-- Repeats a step until it changes nothing, at most `limit` times. -/
def settle (step : α → α) : Nat → α → α
  | 0, a => a
  | limit + 1, a =>
    let next := step a
    if next == a then a else settle step limit next

/-- What holds at first and is kept by every step holds of the result. -/
theorem settle_induction {step : α → α} {P : α → Prop} (keep : ∀ a, P a → P (step a)) {a : α}
    (h : P a) (limit : Nat) : P (settle step limit a) := by
  induction limit generalizing a with
  | zero => exact h
  | succ limit ih =>
    unfold settle
    dsimp only
    split
    · exact h
    · exact ih (keep a h)

/-- With a measure that every change raises, and that stays below the start's measure plus the
limit, the result is settled. -/
theorem step_settle {step : α → α} {P : α → Prop} {measure : α → Nat} {bound : Nat}
    (keep : ∀ a, P a → P (step a)) (bounded : ∀ a, P a → measure a ≤ bound)
    (raise : ∀ a, P a → (step a == a) = false → measure a < measure (step a)) {a : α} (h : P a)
    {limit : Nat} (enough : bound < measure a + limit) :
    (step (settle step limit a) == settle step limit a) = true := by
  induction limit generalizing a with
  | zero =>
    have := bounded a h
    omega
  | succ limit ih =>
    unfold settle
    dsimp only
    split
    · assumption
    · next changed =>
      have higher := raise a h (by simpa using changed)
      exact ih (keep a h) (by omega)

end Settle

namespace FirstTable

/-- FIRST of a string of symbols by a table. The symbols after one that cannot be empty do not
count; a symbol without an entry contributes nothing and ends the string. -/
def ofString (table : FirstTable) : List Symbol → OrderedSet Symbol
  | [] => .singleton .empty
  | s :: string =>
    match table.find? s with
    | none => .empty
    | some first =>
      let visible := first.filter (!·.isEmpty)
      if first.contains .empty then visible.insertAll (ofString table string).toList else visible

/-- Adds FIRST of the right-hand side to FIRST of the left-hand side. -/
def apply (table : FirstTable) (production : Production) : FirstTable :=
  let update := table.ofString production.rhs
  table.alter production.lhs fun first => (first.getD .empty).insertAll update.toList

/-- One round: every production in order, each seeing what those before it have added. -/
def round (productions : List Production) (table : FirstTable) : FirstTable :=
  productions.foldl apply table

end FirstTable

namespace Grammar

/-- The table before the first round: a terminal's set holds the terminal, a non-terminal's set is
empty, and the empty symbol has a set of its own if some production is empty. -/
def seedTable (g : Grammar) : FirstTable :=
  let ofTerminals := g.terminals.toList.map fun a => (a, .singleton a)
  let ofNonTerminals := g.nonTerminals.toList.map fun A => (A, .empty)
  let ofEmpty := if g.hasEmptyProduction then [(.empty, .singleton .empty)] else []
  .ofList (ofTerminals ++ ofNonTerminals ++ ofEmpty)

/-- A number of rounds that is enough: every round but the last adds a terminal or the empty symbol
to the set of some left-hand side. -/
def roundLimit (g : Grammar) : Nat := g.leftHandSides.size * (g.terminals.size + 1) + 1

/-- Computes the FIRST sets of the grammar's symbols and of the end mark. -/
def computeFirst (g : Grammar) : Grammar :=
  let settled := settle (FirstTable.round g.productions.toList) g.roundLimit g.seedTable
  { g with firstTable := settled.set .endMark (.singleton .endMark) }

/-- FIRST of a string by the table that the grammar holds; of no symbols at all it is empty. -/
def first (g : Grammar) (string : List Symbol) : OrderedSet Symbol :=
  if string.isEmpty then .empty else g.firstTable.ofString string

/-- Augmentation, rule numbers and FIRST sets: what the construction of an automaton needs. -/
def prepare (g : Grammar) : Grammar := g.augment.numberRules.computeFirst

end Grammar

end CanonicalLR
