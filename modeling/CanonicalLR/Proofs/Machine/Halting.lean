import CanonicalLR.Machine.Reductions
import CanonicalLR.Proofs.Machine.Lookaheads

/-!
Whether a machine comes to a verdict from a configuration. A machine is deterministic, so one that halts
does so from every configuration on its way, and one that comes back to configurations of a kind again
and again never does. Every path can be the stack of a run, because an input may hold non-terminals: if
all runs end, the machine halts on every path, before every symbol.
-/

set_option autoImplicit false
set_option relaxedAutoImplicit false

namespace CanonicalLR.Machine

variable {m : Machine}

/-- A machine comes from a configuration to one in which it accepts or rejects. -/
def Halts (m : Machine) (c : Configuration) : Prop :=
  ∃ rows d verdict, m.Steps c rows d ∧ m.step d = .halt verdict

theorem Halts.of_steps {c d : Configuration} {rows : List TraceRow} (halts : m.Halts d)
    (steps : m.Steps c rows d) : m.Halts c := by
  obtain ⟨more, e, verdict, later, ended⟩ := halts
  exact ⟨rows ++ more, e, verdict, steps.trans later, ended⟩

theorem Halts.of_halt {c : Configuration} {verdict : Verdict} (ended : m.step c = .halt verdict) :
    m.Halts c := ⟨[], c, verdict, .refl c, ended⟩

/-- No steps lead on from where a machine halts. -/
private theorem Steps.eq_nil_of_halt {c d : Configuration} {rows : List TraceRow}
    (steps : m.Steps c rows d) {verdict : Verdict} (ended : m.step c = .halt verdict) :
    rows = [] := by
  cases steps with
  | refl => rfl
  | head step _ => cases ended.symm.trans step

/-- A machine that halts does so from every configuration on its way. -/
theorem Halts.later {c d : Configuration} {rows : List TraceRow} (halts : m.Halts c)
    (steps : m.Steps c rows d) : m.Halts d := by
  obtain ⟨whole, e, verdict, ending, ended⟩ := halts
  rcases steps.total ending with ⟨more, _, rest⟩ | ⟨more, _, rest⟩
  · exact ⟨more, e, verdict, rest, ended⟩
  · obtain rfl := rest.eq_nil_of_halt ended
    cases rest
    exact .of_halt ended

/-- A machine that comes from every configuration of a kind to another one does not halt. -/
theorem not_halts {P : Configuration → Prop}
    (again : ∀ c, P c → ∃ rows d, rows ≠ [] ∧ m.Steps c rows d ∧ P d) {c : Configuration}
    (here : P c) : ¬ m.Halts c := by
  rintro ⟨whole, e, verdict, ending, ended⟩
  -- each return uses up some of the steps to the end
  generalize length : whole.length = n
  induction n using Nat.strongRecOn generalizing c whole with
  | ind n ih =>
    subst length
    obtain ⟨rows, d, nonempty, steps, there⟩ := again c here
    rcases steps.total ending with ⟨more, rfl, rest⟩ | ⟨more, _, rest⟩
    · refine ih more.length ?_ there more rest rfl
      have positive := List.length_pos_iff.mpr nonempty
      rw [List.length_append]
      omega
    · obtain rfl := rest.eq_nil_of_halt ended
      cases rest
      obtain ⟨rows', _, nonempty', steps', _⟩ := again _ there
      exact nonempty' (steps'.eq_nil_of_halt ended)

/-- A run ends with a trace exactly if the machine halts from its start. -/
theorem halts_initial_iff {input : List Symbol} :
    m.Halts (initial input) ↔ ∃ limit trace, m.run limit input = some (.ok trace) := by
  constructor
  · rintro ⟨rows, d, verdict, steps, ended⟩
    exact ⟨_, _, run_of_steps steps ended⟩
  · rintro ⟨limit, trace, ended⟩
    obtain ⟨rows, d, steps, halts, _⟩ := steps_of_run ended
    exact ⟨rows, d, _, steps, halts⟩

/-- Of two ways to cut a stack, the taller top begins with the other one. -/
theorem exists_append_of_length_le {top below top' below' : List Frame}
    (same : top ++ below = top' ++ below') (le : top.length ≤ top'.length) :
    ∃ middle, top' = top ++ middle ∧ below = middle ++ below' := by
  obtain ⟨middle, rfl⟩ := List.prefix_of_prefix_length_le (List.prefix_append top below)
    (same ▸ List.prefix_append top' below') le
  rw [List.append_assoc] at same
  exact ⟨middle, rfl, List.append_cancel_left same⟩

namespace Canonical

variable {goal : Symbol} {a : Automaton} (canonical : m.Canonical goal a)
include canonical

/-- A reduction over a path leaves a path. -/
theorem path_cons {below : List Frame} (path : Automaton.Path m.grammar a below) {lhs b : Symbol}
    {rhs : List Symbol} (initial : a.HasItem (topState below) (.initial lhs rhs b)) {target : Nat}
    (edge : a.transition? (topState below) lhs = some target) :
    Automaton.Path m.grammar a (⟨lhs, target⟩ :: below) :=
  .cons path (canonical.mem_occurrences_of_transition? edge
    (Grammar.lhs_mem_symbols (canonical.belongs initial).production)) edge

/-- Before its lookahead a complete item on top of a path is reduced, or the machine accepts. -/
theorem step_of_complete (fresh : m.grammar.start ∉ m.grammar.occurrences) (free : a.ConflictFree)
    {stack : List Frame} (path : Automaton.Path m.grammar a stack) {lhs : Symbol}
    {before input : List Symbol}
    (here : a.HasItem (topState stack) ⟨lhs, before, [], Item.lookaheadOf input⟩)
    (known : m.grammar.IsLookahead (Item.lookaheadOf input)) :
    (lhs = m.grammar.start ∧ m.step ⟨stack, input⟩ = .halt .accepted) ∨
    ∃ popped below target, stack = popped ++ below ∧ popped.length = before.length ∧
      a.HasItem (topState below) (.initial lhs before (Item.lookaheadOf input)) ∧
      a.transition? (topState below) lhs = some target ∧
      m.step ⟨stack, input⟩ = .next ⟨⟨lhs, target⟩ :: below, input⟩ := by
  rcases canonical.action_of_complete (fun _ _ => canonical.lookahead_of_start fresh) free here rfl
    known with ⟨start, accepts⟩ | ⟨_, rule, reduces, named⟩
  · change m.action ⟨stack, input⟩ = .accept at accepts
    exact .inl ⟨start, by simp only [step, accepts]⟩
  · change m.action ⟨stack, input⟩ = .reduce rule at reduces
    cases canonical.stepCase (c := ⟨stack, input⟩) path with
    | @reduce rule' target item popped below action step named' _ complete lookahead _ split symbols
        initial _ edge =>
      obtain rfl := Action.reduce.inj (reduces.symm.trans action)
      have same := Option.some.inj (named.symm.trans named')
      obtain ⟨lhs', before', after, b⟩ := item
      obtain rfl : after = [] := complete
      simp only [Item.production, Item.rhs, List.append_nil] at same
      cases same
      refine .inr ⟨popped, below, target, split, ?_, ?_, edge, step⟩
      · simpa using congrArg List.length symbols
      · have mark : Item.lookaheadOf input = b := lookahead
        rw [mark]
        exact initial
    | shift action => cases reduces.symm.trans action
    | goto action => cases reduces.symm.trans action
    | accept action => cases reduces.symm.trans action
    | recover action => cases reduces.symm.trans action
    | reject action => cases reduces.symm.trans action

/-- From the symbols of a path, which may be non-terminals, the machine builds the path. -/
theorem exists_steps_of_path {stack : List Frame} (path : Automaton.Path m.grammar a stack)
    (rest : List Symbol) :
    ∃ rows, m.Steps ⟨[], stack.reverse.map (·.symbol) ++ rest⟩ rows ⟨stack, rest⟩ := by
  induction path generalizing rest with
  | nil => exact ⟨[], .refl _⟩
  | @cons frame below path occurs edge ih =>
    obtain ⟨rows, steps⟩ := ih (frame.symbol :: rest)
    have step : m.step ⟨below, frame.symbol :: rest⟩ = .next ⟨frame :: below, rest⟩ := by
      have action : m.action ⟨below, frame.symbol :: rest⟩ = .shift frame.state ∨
          m.action ⟨below, frame.symbol :: rest⟩ = .goto frame.state := by
        by_cases kind : frame.symbol.isTerminal = true
        · exact .inl
            (canonical.shift_of_transition? edge (Grammar.mem_terminals.mpr ⟨occurs, kind⟩))
        · rw [Symbol.isTerminal_eq_not, Bool.not_eq_true, Bool.not_eq_false'] at kind
          exact .inr (canonical.goto_of_transition? edge
            ((Grammar.mem_nonTerminals canonical.lhs).mpr (.inr ⟨occurs, kind⟩)))
      rcases action with action | action <;> simp only [Machine.step, action] <;> rfl
    refine ⟨rows ++ [m.rowOf ⟨below, frame.symbol :: rest⟩], ?_⟩
    simpa using steps.trans (.single step)

/-- Where every run ends, the machine halts on every path, whatever symbol comes next. -/
theorem exists_halts_of_ends
    (ends : ∀ input, ∃ limit trace, m.run limit input = some (.ok trace)) {stack : List Frame}
    (path : Automaton.Path m.grammar a stack) (s : Symbol) :
    ∃ rest, m.Halts ⟨stack, s :: rest⟩ := by
  obtain ⟨rest, whole⟩ := exists_complete_concat (stack.reverse.map (·.symbol)) s
  obtain ⟨rows, steps⟩ := canonical.exists_steps_of_path path (s :: rest)
  have halts := halts_initial_iff.mpr (ends (stack.reverse.map (·.symbol) ++ [s]))
  rw [initial, whole] at halts
  exact ⟨rest, halts.later steps⟩

end Canonical

end CanonicalLR.Machine
