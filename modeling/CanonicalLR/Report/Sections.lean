import CanonicalLR.Parser
import CanonicalLR.Report.Box

/-!
What a parser shows of itself and of its runs.
-/

set_option autoImplicit false
set_option relaxedAutoImplicit false

namespace CanonicalLR.Report

/-- The elements of a set between braces, with a space inside either brace. -/
def symbolSet (symbols : OrderedSet Symbol) : String :=
  if symbols.isEmpty then "\x7b \x7d"
  else "\x7b " ++ renderSymbols ", " symbols.toList ++ " \x7d"

def firstSets (table : FirstTable) : String :=
  "\n".intercalate (table.toList.map fun (symbol, first) =>
    "FIRST( " ++ symbol.render ++ " ) = " ++ symbolSet first)

def stateName (id : Nat) : String := "I" ++ toString id

/-- The item sets of all states, each under the name of its state. -/
def itemSets (style : Style) (a : Automaton) : String :=
  "\n\n".intercalate (a.states.zipIdx.map fun (state, id) =>
    style.paint .yellow (stateName id ++ ":") ++ "\n" ++ state.render)

/-- The transitions of one state, its name before the first of them only. -/
def stateTransitions (id : Nat) (edges : SymbolMap Nat) : String :=
  let name := stateName id
  "\n".intercalate (edges.toList.zipIdx.map fun ((symbol, target), i) =>
    (if i = 0 then name else repeated ' ' name.length) ++
      " --- " ++ symbol.render ++ " --> " ++ stateName target)

/-- The transitions of all states that have any. -/
def transitions (a : Automaton) : String :=
  let sources := a.transitions.zipIdx.filter fun (edges, _) => !edges.isEmpty
  "\n\n".intercalate (sources.map fun (edges, id) => stateTransitions id edges)

/-- The cells of an action table: a header with the symbols, then for every state its name and the
actions in its row. -/
def actionCells (t : ActionTable) : List (List String) :=
  let header := "" :: t.columns.headers.map Symbol.render
  let rows := t.rows.zipIdx.map fun (row, id) =>
    stateName id :: (row.drop 1).map Action.render
  header :: rows

/-- The action table, its columns under their symbols. -/
def actionTable (style : Style) (t : ActionTable) : String :=
  Box.render style (fun i _ => if i = 0 then .center else .left) (actionCells t)

def tokenStream (input : List Symbol) : String := renderSymbols " " input

/-- The trace of a run, with the rest of the input to the right of its column. -/
def trace (style : Style) (m : Machine) (trace : Trace) : String :=
  let align (i j : Nat) : Align := if i = 0 then .center else if j = 2 then .right else .left
  Box.render style align (m.entries trace)

/-- All that is known of a parser before it reads an input. -/
def ofParser (style : Style) (p : Parser) : String :=
  "\n".intercalate
    [style.titled "Augmented Grammar" p.grammar.render,
      style.titled "FIRST Set" (firstSets p.grammar.firstTable),
      style.titled "LR(1) Sets of Items" (itemSets style p.automaton),
      style.titled "LR(1) DFA" (transitions p.automaton),
      style.titled "Parsing Table" (actionTable style p.table)]

end CanonicalLR.Report
