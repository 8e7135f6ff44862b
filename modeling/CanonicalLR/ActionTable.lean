import CanonicalLR.Automaton
import CanonicalLR.Grammar.Basic

/-!
The action table of an automaton: a row for every state, a column for every symbol. A later entry
replaces an earlier one. Items are entered in their order and transitions after them, so a shift
wins over a reduction, and of two reductions the one by the greater rule.

The columns are numbered from 1: the terminals in ascending order, the end mark, the non-terminals in
ascending order. A name has at most one column in each kind. The end mark's column is the one after the
terminals even where the grammar itself has a terminal of that name, whose own column then belongs to
no symbol.
-/

set_option autoImplicit false
set_option relaxedAutoImplicit false

namespace CanonicalLR

/-- What to do in a state on a symbol. -/
inductive Action where
  /-- Nothing of the kind is expected here. -/
  | error
  /-- Take the terminal and enter the state. -/
  | shift (state : Nat)
  /-- Take the non-terminal and enter the state. -/
  | goto (state : Nat)
  /-- Replace the right-hand side of the rule, on top of the stack, by its left-hand side. -/
  | reduce (rule : Nat)
  /-- The input is complete. -/
  | accept
  deriving BEq, ReflBEq, LawfulBEq, DecidableEq

def Action.render : Action → String
  | .error => ""
  | .shift state => "s" ++ toString state
  | .goto state => toString state
  | .reduce rule => "r" ++ toString rule
  | .accept => "acc"

/-- The column numbers of symbols, by kind. -/
structure Columns where
  terminals : SymbolMap Nat
  nonTerminals : SymbolMap Nat
  deriving BEq, DecidableEq

namespace Columns

/-- The column of the end mark in a grammar's table. -/
def endColumn (g : Grammar) : Nat := g.terminals.size + 1

def ofGrammar (g : Grammar) : Columns where
  terminals := .ofList (g.terminals.toList.zipIdx 1 ++ [(.endMark, endColumn g)])
  nonTerminals := .ofList (g.nonTerminals.toList.zipIdx (endColumn g + 1))

/-- The number of cells in a row of a grammar's table; the first one is unused. -/
def rowLength (g : Grammar) : Nat := endColumn g + g.nonTerminals.size + 1

/-- The column of a symbol, looked up among those of its kind. -/
def find? (columns : Columns) (symbol : Symbol) : Option Nat :=
  if symbol.isTerminal then columns.terminals.find? symbol else columns.nonTerminals.find? symbol

/-- One more than the number of symbols with a column. -/
def count (columns : Columns) : Nat :=
  columns.terminals.size + columns.nonTerminals.size + 1

/-- The symbols in order of their columns. -/
def headers (columns : Columns) : List Symbol :=
  let entries := columns.terminals.toList ++ columns.nonTerminals.toList
  (entries.mergeSort fun a b => a.2 ≤ b.2).map (·.1)

end Columns

/-- Rows of actions by state, with the columns of the symbols. -/
structure ActionTable where
  columns : Columns
  rows : List (List Action)
  deriving BEq, DecidableEq

namespace ActionTable

/-- Puts an action into a column, where there is one. -/
def enter (column : Option Nat) (action : Action) (row : List Action) : List Action :=
  match column with
  | some column => row.set column action
  | none => row

/-- Enters an item. A complete one of the start symbol accepts at the end mark, any other complete
one reduces on its lookahead. -/
def enterItem (g : Grammar) (columns : Columns) (row : List Action) (item : Item) :
    Except BuildError (List Action) :=
  if !item.isComplete then .ok row
  else if item.lhs == g.start then
    .ok (enter (columns.terminals.find? .endMark) .accept row)
  else
    match g.ruleNumber? item.production with
    | some rule =>
      .ok (enter (columns.terminals.find? item.lookahead) (.reduce rule) row)
    | none => .error (.unindexedProduction item.production)

/-- Enters a transition, a shift on a terminal and a goto on a non-terminal. -/
def enterTransition (columns : Columns) (row : List Action) (edge : Symbol × Nat) : List Action :=
  let action := if edge.1.isTerminal then .shift edge.2 else .goto edge.2
  enter (columns.find? edge.1) action row

def rowOf (g : Grammar) (columns : Columns) (state : ItemSet) (edges : SymbolMap Nat) :
    Except BuildError (List Action) :=
  let blank := List.replicate (Columns.rowLength g) .error
  (state.toList.foldlM (enterItem g columns) blank).map
    (edges.toList.foldl (enterTransition columns))

def ofAutomaton (g : Grammar) (a : Automaton) : Except BuildError ActionTable :=
  let columns := Columns.ofGrammar g
  let rows := (a.states.zip a.transitions).mapM fun (state, edges) => rowOf g columns state edges
  rows.map (⟨columns, ·⟩)

def row? (t : ActionTable) (state : Nat) : Option (List Action) := t.rows[state]?

/-- The action in a state on a symbol; one that the table does not know is an error. -/
def action (t : ActionTable) (state : Nat) (symbol : Symbol) : Action :=
  match t.row? state, t.columns.find? symbol with
  | some row, some column => row.getD column .error
  | _, _ => .error

end ActionTable

end CanonicalLR
