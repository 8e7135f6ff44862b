import CanonicalLR.ActionTable

/-!
The shift-reduce machine of a grammar and an action table. It works on a stack of frames and the
input that is left. On an error it recovers: it drops frames from the stack until the state on top
acts on the current symbol, and gives up when no state does. A run leaves a trace: a row for every
step, with the configuration before it and the action taken.
-/

set_option autoImplicit false
set_option relaxedAutoImplicit false

namespace CanonicalLR

/-- An entry of the stack: a symbol and the state that was entered with it. -/
structure Frame where
  symbol : Symbol
  state : Nat
  deriving BEq, DecidableEq

/-- The state on top of a stack of frames, topmost first, that stands on state 0. -/
def topState : List Frame → Nat
  | [] => 0
  | frame :: _ => frame.state

/-- A stack, topmost frame first, and the input that is left. -/
structure Configuration where
  stack : List Frame
  input : List Symbol
  deriving BEq, DecidableEq

namespace Configuration

def top (c : Configuration) : Nat := topState c.stack

/-- The first symbol of the input; after the last one there are only end marks. -/
def current (c : Configuration) : Symbol := c.input.headD .endMark

/-- The states on the stack, state 0 at the bottom first. -/
def states (c : Configuration) : List Nat := 0 :: c.stack.reverse.map (·.state)

/-- The symbols on the stack, lowest first. -/
def symbols (c : Configuration) : List Symbol := c.stack.reverse.map (·.symbol)

/-- Takes the current symbol to the stack and enters a state with it. -/
def take (c : Configuration) (state : Nat) : Configuration :=
  ⟨⟨c.current, state⟩ :: c.stack, c.input.tail⟩

end Configuration

/-- How a table can fail a machine in a reduction. -/
inductive Defect where
  /-- The rule's number is not one of the grammar's. -/
  | unknownRule (rule : Nat)
  /-- The stack has fewer frames than the rule's right-hand side has symbols. -/
  | stackUnderflow (rule : Nat)
  /-- The state below the right-hand side has no goto on the left-hand side. -/
  | missingGoto (state : Nat) (symbol : Symbol)
  deriving DecidableEq

def Defect.message : Defect → String
  | .unknownRule rule => "reduce action references unknown rule " ++ toString rule
  | .stackUnderflow rule => "stack underflow while reducing by rule " ++ toString rule
  | .missingGoto state symbol =>
    "no goto entry for state " ++ toString state ++ " on " ++ symbol.render

inductive Verdict where
  | accepted
  | rejected
  deriving DecidableEq

inductive Step where
  | next (c : Configuration)
  | halt (verdict : Verdict)
  | fail (defect : Defect)
  deriving DecidableEq

/-- A grammar, for its numbered rules, and an action table. -/
structure Machine where
  grammar : Grammar
  table : ActionTable

namespace Machine

def action (m : Machine) (c : Configuration) : Action := m.table.action c.top c.current

/-- Replaces the right-hand side of a rule on top of the stack by its left-hand side. -/
def reduce (m : Machine) (c : Configuration) (rule : Nat) : Except Defect Configuration :=
  match m.grammar.rule? rule with
  | none => .error (.unknownRule rule)
  | some production =>
    if c.stack.length < production.rhs.length then .error (.stackUnderflow rule)
    else
      let below := c.stack.drop production.rhs.length
      match m.table.action (topState below) production.lhs with
      | .goto state => .ok ⟨⟨production.lhs, state⟩ :: below, c.input⟩
      | _ => .error (.missingGoto (topState below) production.lhs)

/-- Drops frames, one at least, until the state on top acts on a symbol. -/
def unwind (t : ActionTable) (symbol : Symbol) : List Frame → Option (List Frame)
  | [] => none
  | _ :: below =>
    if t.action (topState below) symbol == .error then unwind t symbol below
    else some below

/-- The configuration in which a run goes on after an error, if there is one. -/
def recover (m : Machine) (c : Configuration) : Option Configuration :=
  (unwind m.table c.current c.stack).map fun stack => ⟨stack, c.input⟩

/-- One step. A non-terminal in the input counts as already reduced. -/
def step (m : Machine) (c : Configuration) : Step :=
  match m.action c with
  | .accept => .halt .accepted
  | .shift state | .goto state => .next (c.take state)
  | .reduce rule =>
    match m.reduce c rule with
    | .ok c => .next c
    | .error defect => .fail defect
  | .error =>
    match m.recover c with
    | some c => .next c
    | none => .halt .rejected

/-- An input with the end mark after it, unless it ends with one. -/
def complete (input : List Symbol) : List Symbol :=
  match input.getLast? with
  | some last => if last.isEndMark then input else input ++ [.endMark]
  | none => [.endMark]

def initial (input : List Symbol) : Configuration := ⟨[], complete input⟩

end Machine

/-- A configuration and the action taken on it. -/
structure TraceRow where
  configuration : Configuration
  action : Action
  deriving BEq, DecidableEq

/-- The rows of a run that has ended, and how it ended. -/
structure Trace where
  rows : List TraceRow
  verdict : Verdict
  deriving DecidableEq

namespace Trace

def isAccepted (trace : Trace) : Bool := trace.verdict == .accepted

def hadError (trace : Trace) : Bool := trace.rows.any (·.action == .error)

end Trace

namespace Machine

def rowOf (m : Machine) (c : Configuration) : TraceRow := ⟨c, m.action c⟩

/-- Runs on from a configuration, with the rows so far, the last one first. There is no result if
the run has not ended after `limit` steps. -/
def runFrom (m : Machine) : Nat → List TraceRow → Configuration → Option (Except Defect Trace)
  | 0, _, _ => none
  | limit + 1, rows, c =>
    let rows := m.rowOf c :: rows
    match m.step c with
    | .next c => runFrom m limit rows c
    | .halt verdict => some (.ok ⟨rows.reverse, verdict⟩)
    | .fail defect => some (.error defect)

/-- The run on an input, if it ends within `limit` steps: its trace, or the defect that it found in
the table. -/
def run (m : Machine) (limit : Nat) (input : List Symbol) : Option (Except Defect Trace) :=
  m.runFrom limit [] (initial input)

def describe (m : Machine) : Action → String
  | .error => "Error"
  | .shift state => "Shift " ++ toString state
  | .goto state => "Goto " ++ toString state
  | .reduce rule =>
    match m.grammar.rule? rule with
    | some production => "Reduce " ++ production.render
    | none => "Reduce r" ++ toString rule
  | .accept => "Accept"

/-- The last description of a run that met an error. -/
def errorFinish : String := "Finish [ERROR OCCURRED]"

/-- The cells of a row: the states, the symbols, the rest of the input, the action. -/
def cells (m : Machine) (row : TraceRow) : List String :=
  [" ".intercalate (row.configuration.states.map toString),
    renderSymbols "" row.configuration.symbols,
    renderSymbols "" row.configuration.input,
    m.describe row.action]

/-- The header and the cells of all rows; the last action is replaced by a remark if the run met an
error. -/
def entries (m : Machine) (trace : Trace) : List (List String) :=
  let rows := trace.rows.map m.cells
  let rows :=
    if trace.hadError then rows.modify (rows.length - 1) fun cells => cells.set 3 errorFinish
    else rows
  ["Stack", "Symbols", "Input", "Action"] :: rows

theorem runFrom_add {m : Machine} {limit : Nat} {rows : List TraceRow} {c : Configuration}
    {result : Except Defect Trace} (h : m.runFrom limit rows c = some result) (more : Nat) :
    m.runFrom (limit + more) rows c = some result := by
  induction limit generalizing rows c with
  | zero => simp [runFrom] at h
  | succ limit ih =>
    rw [Nat.add_right_comm]
    unfold runFrom at h ⊢
    cases same : m.step c with
    | next c' => simp only [same] at h ⊢; exact ih h
    | halt verdict => simp only [same] at h ⊢; exact h
    | fail defect => simp only [same] at h ⊢; exact h

end Machine

end CanonicalLR
