import CanonicalLR.Machine.Reductions
import CanonicalLR.Proofs.Machine.Actions
import CanonicalLR.Proofs.Machine.Runs

/-!
Stacks as paths through the automaton. Every step keeps a stack a path, recovery included. On top of a
path stand the symbols before the dot of any item of its last state, and below them is a state that the
item's left-hand side leads on from; so a reduction always finds its right-hand side and its goto.
-/

set_option autoImplicit false
set_option relaxedAutoImplicit false

namespace CanonicalLR

namespace Automaton

/-- Every frame of a stack was entered by a transition from the state below it, on a symbol of a
right-hand side. -/
inductive Path (g : Grammar) (a : Automaton) : List Frame → Prop
  | nil : Path g a []
  | cons {frame : Frame} {below : List Frame} (rest : Path g a below)
      (occurs : frame.symbol ∈ g.occurrences)
      (step : a.transition? (topState below) frame.symbol = some frame.state) :
      Path g a (frame :: below)

variable {g : Grammar} {goal : Symbol} {a : Automaton}

namespace Path

theorem of_cons {frame : Frame} {below : List Frame} (path : Path g a (frame :: below)) :
    Path g a below := by
  cases path with
  | cons rest _ _ => exact rest

theorem of_append {popped below : List Frame} (path : Path g a (popped ++ below)) :
    Path g a below := by
  induction popped with
  | nil => exact path
  | cons frame popped ih => exact ih path.of_cons

variable (canonical : a.Canonical g goal)
include canonical

theorem eq_nil_of_topState {stack : List Frame} (path : Path g a stack) (zero : topState stack = 0) :
    stack = [] := by
  cases path with
  | nil => rfl
  | cons _ _ step => exact absurd zero (canonical.target_ne_zero step)

/-- A frame has the symbol over which the dot of an item has come into its state. -/
theorem retreat {frame : Frame} {below : List Frame} (path : Path g a (frame :: below))
    {lhs s lookahead : Symbol} {before after : List Symbol}
    (here : a.HasItem frame.state ⟨lhs, before ++ [s], after, lookahead⟩) :
    frame.symbol = s ∧ a.HasItem (topState below) ⟨lhs, before, s :: after, lookahead⟩ := by
  cases path with
  | cons _ occurs step =>
    obtain ⟨name, moved⟩ := canonical.retreat step here rfl
    exact ⟨canonical.eq_next moved rfl (Grammar.occurrences_subset_symbols occurs) name, moved⟩

/-- The symbols before the dot of an item of the state on top stand on top of the stack, and below any
of them the dot stands before them. -/
theorem uncover_append {lhs lookahead : Symbol} {front back : List Symbol} {stack : List Frame}
    (path : Path g a stack) {after : List Symbol}
    (here : a.HasItem (topState stack) ⟨lhs, front ++ back, after, lookahead⟩) :
    ∃ popped below, stack = popped ++ below ∧ popped.map (·.symbol) = back.reverse ∧
      a.HasItem (topState below) ⟨lhs, front, back ++ after, lookahead⟩ := by
  -- the dot moves back over one frame at a time
  induction back using List.reverseRecOn generalizing stack after with
  | nil => exact ⟨[], stack, rfl, rfl, by simpa using here⟩
  | append_singleton back s ih =>
    rw [← List.append_assoc] at here
    cases stack with
    | nil =>
      have nothing := canonical.before_eq_nil_of_start here
      simp at nothing
    | cons frame below =>
      obtain ⟨same, moved⟩ := path.retreat canonical here
      obtain ⟨popped, below, rfl, symbols, there⟩ := ih path.of_cons moved
      refine ⟨frame :: popped, below, rfl, ?_, ?_⟩
      · simp [symbols, same]
      · simpa [List.append_assoc] using there

/-- Below all the symbols before its dot an item has its dot at the start. -/
theorem uncover {lhs lookahead : Symbol} {before : List Symbol} {stack : List Frame}
    (path : Path g a stack) {after : List Symbol}
    (here : a.HasItem (topState stack) ⟨lhs, before, after, lookahead⟩) :
    ∃ popped below, stack = popped ++ below ∧ popped.map (·.symbol) = before.reverse ∧
      a.HasItem (topState below) (.initial lhs (before ++ after) lookahead) := by
  rw [← List.nil_append before] at here
  exact path.uncover_append canonical here

/-- What holds of the start item on the empty stack, and is kept by predictions and by moving the dot
over the symbol of a frame, holds of the items on top of a path. -/
theorem hasItem_induction {Q : List Frame → Item → Prop} (start : Q [] (startItem g goal))
    (moved : ∀ (frame : Frame) below item rest, a.HasItem (topState below) item → Q below item →
      item.after = frame.symbol :: rest →
        Q (frame :: below) ⟨item.lhs, item.before ++ [frame.symbol], rest, item.lookahead⟩)
    (keep : ∀ stack item, a.HasItem (topState stack) item → Q stack item →
      ∀ q ∈ item.predictions g, Q stack q) {stack : List Frame} (path : Path g a stack)
    {item : Item} (here : a.HasItem (topState stack) item) : Q stack item := by
  have closed : ∀ stack item, a.HasItem (topState stack) item ∧ Q stack item →
      ∀ q ∈ item.predictions g, a.HasItem (topState stack) q ∧ Q stack q :=
    fun stack item before q predicted =>
      ⟨canonical.closed before.1 predicted, keep stack item before.1 before.2 q predicted⟩
  induction path generalizing item with
  | nil =>
    exact (canonical.hasItem_zero_induction (Q := fun item => a.HasItem 0 item ∧ Q [] item)
      ⟨canonical.hasItem_startItem, start⟩ (fun item _ => closed [] item) here).2
  | @cons frame below _ occurs edge ih =>
    refine (canonical.hasItem_target_induction edge
      (Q := fun item => a.HasItem frame.state item ∧ Q (frame :: below) item)
      (fun item t rest there after name => ?_) (fun item _ => closed (frame :: below) item) here).2
    obtain rfl := canonical.eq_next there after (Grammar.occurrences_subset_symbols occurs) name
    obtain ⟨target, step, next⟩ := canonical.advance there after
    obtain rfl := Option.some.inj (edge.symm.trans step)
    exact ⟨next, moved frame below item rest there (ih there) after⟩

end Path

end Automaton

namespace Machine

variable {m : Machine} {goal : Symbol} {a : Automaton}

/-- What a step does, seen in the automaton. -/
inductive StepCase (m : Machine) (a : Automaton) (c : Configuration) : Prop
  | shift {target : Nat} (action : m.action c = .shift target)
      (step : m.step c = .next (c.take target)) (mem : c.current ∈ m.grammar.terminals)
      (edge : a.transition? c.top c.current = some target)
  | goto {target : Nat} (action : m.action c = .goto target)
      (step : m.step c = .next (c.take target)) (occurs : c.current ∈ m.grammar.occurrences)
      (kind : c.current.isNonTerminal = true)
      (edge : a.transition? c.top c.current = some target)
  | reduce {rule target : Nat} {item : Item} {popped below : List Frame}
      (action : m.action c = .reduce rule)
      (step : m.step c = .next ⟨⟨item.lhs, target⟩ :: below, c.input⟩)
      (named : m.grammar.rule? rule = some item.production)
      (here : a.HasItem c.top item) (complete : item.after = [])
      (lookahead : c.current = item.lookahead) (other : item.lhs ≠ m.grammar.start)
      (stack : c.stack = popped ++ below)
      (symbols : popped.map (·.symbol) = item.before.reverse)
      (initial : a.HasItem (topState below) (.initial item.lhs item.before item.lookahead))
      (occurs : item.lhs ∈ m.grammar.occurrences)
      (edge : a.transition? (topState below) item.lhs = some target)
  | accept {item : Item} (action : m.action c = .accept) (step : m.step c = .halt .accepted)
      (here : a.HasItem c.top item) (complete : item.after = [])
      (start : item.lhs = m.grammar.start) (mark : c.current = .endMark)
  | recover {dropped below : List Frame} (action : m.action c = .error)
      (step : m.step c = .next ⟨below, c.input⟩) (stack : c.stack = dropped ++ below)
      (acts : m.action ⟨below, c.input⟩ ≠ .error)
  | reject (action : m.action c = .error) (step : m.step c = .halt .rejected)

namespace Canonical

variable (canonical : m.Canonical goal a)
include canonical

/-- A reduction finds its rule, its right-hand side on the stack and a goto below it. -/
private theorem reduce_of_path {c : Configuration} (path : Automaton.Path m.grammar a c.stack)
    {rule : Nat} (action : m.action c = .reduce rule) : StepCase m a c := by
  obtain ⟨item, here, complete, other, lookahead, named⟩ := canonical.item_of_reduce action
  obtain ⟨lhs, before, after, b⟩ := item
  obtain rfl : after = [] := complete
  obtain ⟨popped, below, stack, symbols, initial⟩ := path.uncover canonical.toCanonical here
  rw [List.append_nil] at initial
  obtain ⟨target, edge⟩ : ∃ target, a.transition? (topState below) lhs = some target :=
    canonical.exists_transition?_of_initial initial rfl other
  have occurs := canonical.mem_occurrences_of_transition? edge
    (Grammar.lhs_mem_symbols (canonical.belongs initial).production)
  have goto := canonical.goto_of_transition? edge ((Grammar.mem_nonTerminals canonical.lhs).mpr
    (.inl ⟨_, (canonical.belongs initial).production, rfl⟩))
  have length : popped.length = before.length := by
    have lengths := congrArg List.length symbols
    simpa using lengths
  have reduced : m.reduce c rule = .ok ⟨⟨lhs, target⟩ :: below, c.input⟩ := by
    rw [show c = ⟨popped ++ below, c.input⟩ by rw [← stack]]
    simp only [Item.production, Item.rhs, List.append_nil] at named
    exact reduce_append length named goto c.input
  refine .reduce action ?_ named here rfl lookahead other stack symbols initial occurs edge
  simp only [Machine.step, action, reduced]

/-- On a path a step does one of these things. -/
theorem stepCase {c : Configuration} (path : Automaton.Path m.grammar a c.stack) :
    StepCase m a c := by
  cases action : m.action c with
  | shift target =>
    obtain ⟨mem, edge⟩ := canonical.transition?_of_shift action
    exact .shift action (by simp only [step, action]) mem edge
  | goto target =>
    obtain ⟨occurs, kind, edge⟩ := canonical.transition?_of_goto action
    exact .goto action (by simp only [step, action]) occurs kind edge
  | reduce rule => exact canonical.reduce_of_path path action
  | accept =>
    obtain ⟨mark, item, here, complete, start⟩ := canonical.item_of_accept action
    exact .accept action (by simp only [step, action]) here complete start mark
  | error =>
    cases found : unwind m.table c.current c.stack with
    | none => exact .reject action (by simp only [step, action, recover, found, Option.map_none])
    | some below =>
      obtain ⟨⟨dropped, stack⟩, _, acts, _⟩ := longest_of_unwind found
      exact .recover action (by simp only [step, action, recover, found, Option.map_some])
        stack.symm acts

theorem path_of_step {c c' : Configuration} (path : Automaton.Path m.grammar a c.stack)
    (next : m.step c = .next c') : Automaton.Path m.grammar a c'.stack := by
  cases canonical.stepCase path with
  | shift _ step mem edge =>
    cases step.symm.trans next
    exact .cons path (Grammar.mem_terminals.mp mem).1 edge
  | goto _ step occurs _ edge =>
    cases step.symm.trans next
    exact .cons path occurs edge
  | reduce _ step _ _ _ _ _ stack _ _ occurs edge =>
    cases step.symm.trans next
    rw [stack] at path
    exact .cons path.of_append occurs edge
  | accept _ step => cases step.symm.trans next
  | recover _ step stack =>
    cases step.symm.trans next
    rw [stack] at path
    exact path.of_append
  | reject _ step => cases step.symm.trans next

/-- A step on a path finds no defect in the table. -/
theorem step_ne_fail {c : Configuration} (path : Automaton.Path m.grammar a c.stack)
    (defect : Defect) : m.step c ≠ .fail defect := by
  intro fails
  cases canonical.stepCase path with
  | shift _ step => cases step.symm.trans fails
  | goto _ step => cases step.symm.trans fails
  | reduce _ step => cases step.symm.trans fails
  | accept _ step => cases step.symm.trans fails
  | recover _ step => cases step.symm.trans fails
  | reject _ step => cases step.symm.trans fails

/-- Recovery drops frames, and then the table acts on the current symbol. -/
theorem exists_append_of_error {c d : Configuration} (path : Automaton.Path m.grammar a c.stack)
    (error : m.action c = .error) (next : m.step c = .next d) :
    ∃ dropped below, c.stack = dropped ++ below ∧ d = ⟨below, c.input⟩ ∧ m.action d ≠ .error := by
  cases canonical.stepCase path with
  | @recover dropped below _ step stack acts =>
    cases next.symm.trans step
    exact ⟨dropped, below, stack, rfl, acts⟩
  | reject _ step => cases next.symm.trans step
  | shift action => cases action.symm.trans error
  | goto action => cases action.symm.trans error
  | reduce action => cases action.symm.trans error
  | accept action => cases action.symm.trans error

theorem path_of_steps {c d : Configuration} {rows : List TraceRow} (steps : m.Steps c rows d)
    (path : Automaton.Path m.grammar a c.stack) : Automaton.Path m.grammar a d.stack := by
  induction steps with
  | refl => exact path
  | head step _ ih => exact ih (canonical.path_of_step path step)

theorem path_of_reaches {input : List Symbol} {n : Nat} {c : Configuration}
    (reaches : m.Reaches input n c) : Automaton.Path m.grammar a c.stack := by
  induction reaches with
  | start => exact .nil
  | next _ step ih => exact canonical.path_of_step ih step

end Canonical

end Machine

end CanonicalLR
