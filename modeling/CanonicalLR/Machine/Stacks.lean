import CanonicalLR.Machine

/-!
The shift-reduce machine with its states and its symbols on two stacks, which nothing but the steps
themselves keeps together. A step has no outcome where it would read the top of an empty stack or
take more from a stack than there is on it.
-/

set_option autoImplicit false
set_option relaxedAutoImplicit false

namespace CanonicalLR

universe u

/-- A stack of states and one of symbols, both topmost first, and the input that is left. -/
structure Stacks where
  states : List Nat
  symbols : List Symbol
  input : List Symbol
  deriving DecidableEq

inductive StackStep where
  | next (s : Stacks)
  | halt (verdict : Verdict)
  | fail (defect : Defect)
  deriving DecidableEq

namespace Stacks

/-- What is left of a stack below its topmost `n` entries, if there are so many. -/
def below? {α : Type u} (n : Nat) (stack : List α) : Option (List α) :=
  if n ≤ stack.length then some (stack.drop n) else none

/-- State 0 and no symbol, in front of the completed input. -/
def initial (input : List Symbol) : Stacks := ⟨[0], [], Machine.complete input⟩

/-- The first symbol of the input; after the last one there are only end marks. -/
def current (s : Stacks) : Symbol := s.input.headD .endMark

/-- The action of the state on top, if there is one. -/
def action? (m : Machine) (s : Stacks) : Option Action :=
  s.states.head?.map fun top => m.table.action top s.current

/-- Takes the right-hand side of a rule from both stacks, then enters the goto on its left-hand side
of the state that comes to the top. -/
def reduce? (m : Machine) (s : Stacks) (rule : Nat) : Option StackStep :=
  match m.grammar.rule? rule with
  | none => some (.fail (.unknownRule rule))
  | some production =>
    if s.symbols.length < production.rhs.length then some (.fail (.stackUnderflow rule))
    else do
      let states ← below? production.rhs.length s.states
      let symbols ← below? production.rhs.length s.symbols
      let top ← states.head?
      match m.table.action top production.lhs with
      | .goto target => some (.next ⟨target :: states, production.lhs :: symbols, s.input⟩)
      | _ => some (.fail (.missingGoto top production.lhs))

/-- Takes an entry from both stacks, one at least, until the state on top acts on a symbol or there
is no symbol left to take. -/
def unwind? (t : ActionTable) (symbol : Symbol) :
    List Nat → List Symbol → Option (Option (List Nat × List Symbol))
  | _, [] => some none
  | states, _ :: symbols => do
    let states ← below? 1 states
    let top ← states.head?
    if t.action top symbol == .error then unwind? t symbol states symbols
    else some (some (states, symbols))

def step? (m : Machine) (s : Stacks) : Option StackStep := do
  match ← s.action? m with
  | .accept => some (.halt .accepted)
  | .shift state | .goto state =>
    some (.next ⟨state :: s.states, s.current :: s.symbols, s.input.tail⟩)
  | .reduce rule => s.reduce? m rule
  | .error =>
    match ← unwind? m.table s.current s.states s.symbols with
    | some (states, symbols) => some (.next ⟨states, symbols, s.input⟩)
    | none => some (.halt .rejected)

/-- A reduction by a rule comes upon a defect: the rule has no number in the grammar; or there are
fewer symbols than its right-hand side has; or the state below these has no goto on its left-hand
side. -/
inductive Finds (m : Machine) (s : Stacks) (rule : Nat) : Defect → Prop
  | unknownRule (unknown : m.grammar.rule? rule = none) : Finds m s rule (.unknownRule rule)
  | stackUnderflow {production : Production} (named : m.grammar.rule? rule = some production)
      (short : s.symbols.length < production.rhs.length) : Finds m s rule (.stackUnderflow rule)
  | missingGoto {production : Production} {state : Nat}
      (named : m.grammar.rule? rule = some production)
      (enough : production.rhs.length ≤ s.symbols.length)
      (uncovered : s.states[production.rhs.length]? = some state)
      (without : ∀ target, m.table.action state production.lhs ≠ .goto target) :
      Finds m s rule (.missingGoto state production.lhs)

/-- A reduction by a rule is carried out: its right-hand side gives way to its left-hand side, with
the goto of the state below. -/
inductive Reduces (m : Machine) (s : Stacks) (rule : Nat) : Stacks → Prop
  | goto {production : Production} {state target : Nat}
      (named : m.grammar.rule? rule = some production)
      (enough : production.rhs.length ≤ s.symbols.length)
      (uncovered : s.states[production.rhs.length]? = some state)
      (action : m.table.action state production.lhs = .goto target) :
      Reduces m s rule ⟨target :: s.states.drop production.rhs.length,
        production.lhs :: s.symbols.drop production.rhs.length, s.input⟩

end Stacks

/-- A run on two stacks comes to a pair of stacks after a number of steps. -/
inductive Machine.ReachesStacks (m : Machine) (input : List Symbol) : Nat → Stacks → Prop
  | start : ReachesStacks m input 0 (.initial input)
  | next {n : Nat} {s s' : Stacks} (reaches : ReachesStacks m input n s)
      (step : s.step? m = some (.next s')) : ReachesStacks m input (n + 1) s'

/-- The states of frames, with state 0 below them. -/
def statesOf (stack : List Frame) : List Nat := stack.map (·.state) ++ [0]

/-- The frames of a stack taken apart. -/
def Configuration.stacks (c : Configuration) : Stacks :=
  ⟨statesOf c.stack, c.stack.map (·.symbol), c.input⟩

def Step.onStacks : Step → StackStep
  | .next c => .next c.stacks
  | .halt verdict => .halt verdict
  | .fail defect => .fail defect

end CanonicalLR
