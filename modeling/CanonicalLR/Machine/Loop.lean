import CanonicalLR.Automaton
import CanonicalLR.Machine.Stacks

/-!
The loop of a run on two stacks: every turn writes a row, with the action on it, and then acts. A flag
is raised at the first error, and a verdict ends the loop.
-/

set_option autoImplicit false
set_option relaxedAutoImplicit false

namespace CanonicalLR

/-- The states and the symbols on two stacks, both lowest first, the input that is left, and the
action. -/
structure StackRow where
  states : List Nat
  symbols : List Symbol
  input : List Symbol
  action : Action
  deriving DecidableEq

namespace StackRow

/-- The first symbol of the input; after the last one there are only end marks. -/
def current (row : StackRow) : Symbol := row.input.headD .endMark

/-- The states lead from state 0 along transitions on the symbols. -/
structure Spells (a : Automaton) (row : StackRow) : Prop where
  bottom : row.states.head? = some 0
  length : row.states.length = row.symbols.length + 1
  transition : ∀ (k state : Nat) (symbol : Symbol) (target : Nat), row.states[k]? = some state →
    row.symbols[k]? = some symbol → row.states[k + 1]? = some target →
      a.transition? state symbol = some target

/-- Part of the states from the bottom, not all of them and not none, of which the topmost acts on the
current symbol. -/
structure Resumable (t : ActionTable) (row : StackRow) (states : List Nat) : Prop where
  below : states <+: row.states
  proper : states.length < row.states.length
  acts : ∃ top, states.getLast? = some top ∧ t.action top row.current ≠ .error

/-- A row goes on from another at the most states that are resumable there, with as many symbols as
belong to them. -/
structure Resumes (t : ActionTable) (row next : StackRow) : Prop where
  resumable : row.Resumable t next.states
  longest : ∀ states, row.Resumable t states → states <+: next.states
  below : next.symbols <+: row.symbols
  length : next.states.length = next.symbols.length + 1
  input : next.input = row.input
  acts : next.action ≠ .error

end StackRow

/-- The row that a run on two stacks writes, if there is a state on top. -/
def Stacks.row? (m : Machine) (s : Stacks) : Option StackRow :=
  (s.action? m).map fun action => ⟨s.states.reverse, s.symbols.reverse, s.input, action⟩

/-- The row of a configuration, for two stacks. -/
def TraceRow.onStacks (row : TraceRow) : StackRow :=
  ⟨row.configuration.states, row.configuration.symbols, row.configuration.input, row.action⟩

/-- The stacks, the rows written so far, whether there was an error, and how the run ended if it has. -/
structure Loop where
  pair : Stacks
  rows : List StackRow
  hadError : Bool
  verdict? : Option Verdict
  deriving DecidableEq

namespace Loop

def initial (input : List Symbol) : Loop := ⟨.initial input, [], false, none⟩

/-- Writes a row, then acts. -/
def turn? (m : Machine) (l : Loop) : Option (Except Defect Loop) := do
  let row ← l.pair.row? m
  let rows := l.rows ++ [row]
  let hadError := l.hadError || row.action == .error
  match ← l.pair.step? m with
  | .next s => some (.ok ⟨s, rows, hadError, none⟩)
  | .halt verdict => some (.ok ⟨l.pair, rows, hadError, some verdict⟩)
  | .fail defect => some (.error defect)

/-- The rows with the one that the next turn begins with, unless the run has ended. -/
def written (m : Machine) (l : Loop) : List StackRow :=
  match l.verdict? with
  | none => l.rows ++ (l.pair.row? m).toList
  | some _ => l.rows

end Loop

/-- The loop on an input comes to a point between two turns, or behind the last. -/
inductive Machine.Turns (m : Machine) (input : List Symbol) : Loop → Prop
  | start : Turns m input (.initial input)
  | turn {l l' : Loop} (before : Turns m input l) (running : l.verdict? = none)
      (turn : l.turn? m = some (.ok l')) : Turns m input l'

end CanonicalLR
