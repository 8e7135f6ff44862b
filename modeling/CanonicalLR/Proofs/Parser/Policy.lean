import CanonicalLR.Automaton
import CanonicalLR.Proofs.Parser.Construction

/-!
Which action a parser takes where its grammar leaves a choice. A transition on a terminal is shifted
whatever the reductions are. Of several reductions on one lookahead the one with the greatest rule
number is made, and accepting is just the one by the augmented start production. What is neither a
lookahead nor a non-terminal of the grammar, in the kind it has there, is an error in every state.
-/

set_option autoImplicit false
set_option relaxedAutoImplicit false

namespace CanonicalLR

namespace Machine.Canonical

variable {m : Machine} {goal : Symbol} {a : Automaton} (canonical : m.Canonical goal a)
include canonical

/-- Only a symbol of the grammar, up to its kind, is on a transition. -/
theorem exists_occurrence_of_transition? {id target : Nat} {s : Symbol}
    (step : a.transition? id s = some target) : ∃ t ∈ m.grammar.occurrences, s.name = t.name := by
  obtain ⟨item, t, rest, here, after, name⟩ := canonical.exists_item_of_transition? step
  exact ⟨t, Item.next_mem_occurrences (canonical.belongs here).production after, name⟩

/-- The end mark has a transition only as a terminal of the grammar. -/
theorem shift_of_isLookahead (marks : m.grammar.EndMarkIsTerminal) {id target : Nat} {s : Symbol}
    (known : m.grammar.IsLookahead s) (step : a.transition? id s = some target) :
    m.table.action id s = .shift target := by
  rcases known with mem | rfl
  · exact canonical.shift_of_transition? step mem
  · obtain ⟨t, occurs, name⟩ := canonical.exists_occurrence_of_transition? step
    have mark : t.isEndMark = true := beq_iff_eq.mpr name.symm
    have terminal : t.isTerminal = true := by
      rw [Symbol.isTerminal_eq_not, Bool.not_eq_true', ← Bool.not_eq_true]
      intro kind
      rw [marks t (Grammar.occurrences_subset_symbols occurs) kind] at mark
      cases mark
    obtain rfl := Symbol.eq_endMark_of_isEndMark terminal mark
    exact canonical.shift_of_transition? step (Grammar.mem_terminals.mpr ⟨occurs, terminal⟩)

/-- A non-terminal is gone over or is an error. -/
theorem action_of_nonTerminal {s : Symbol} (mem : s ∈ m.grammar.nonTerminals) (id : Nat) :
    m.table.action id s = (a.transition? id s).elim .error .goto := by
  cases step : a.transition? id s with
  | some target => exact canonical.goto_of_transition? step mem
  | none =>
    by_contra acts
    have kind := Grammar.isNonTerminal_of_mem_nonTerminals canonical.lhs mem
    have terminal : s.isTerminal = true := by
      rcases canonical.origin_of_action acts with
        ⟨_, _, step', _⟩ | ⟨item, here, _, ⟨_, rfl, _⟩ | ⟨_, rfl, _⟩⟩
      · cases step.symm.trans step'
      · rfl
      · exact (canonical.belongs here).lookahead
    rw [Symbol.isTerminal_eq_not, kind] at terminal
    cases terminal

/-- An action other than an error is in a state, and on a lookahead or a non-terminal. -/
theorem known_of_action_ne_error {id : Nat} {s : Symbol} (h : m.table.action id s ≠ .error) :
    id < a.states.length ∧ (m.grammar.IsLookahead s ∨ s ∈ m.grammar.nonTerminals) := by
  obtain ⟨state, edges, column, stateAt, _, place⟩ :=
    ActionTable.exists_of_action_ne_error canonical.built h
  exact ⟨(List.getElem?_eq_some_iff.mp stateAt).1, Columns.cases_of_find? canonical.lhs place⟩

end Machine.Canonical

namespace Parser

variable {g : Grammar} {p : Parser}

/-- The action of every state on every symbol. On a lookahead with a transition it is a shift; without
one the complete item whose production has the greatest rule number decides, if there is one. On a
non-terminal it is the transition. Everything else is an error. -/
theorem action_spec (lhs : g.LeftHandSidesNonTerminal) (kinds : g.OneKindPerName)
    (marks : g.EndMarkIsTerminal) (built : ofGrammar g = .ok p) :
    (∀ (id : Nat) state, p.automaton.states[id]? = some state →
      (∀ s, s ∈ p.grammar.terminals ∨ s = .endMark →
        (∀ target, p.automaton.transition? id s = some target →
          p.table.action id s = .shift target) ∧
        (p.automaton.transition? id s = none →
          (p.table.action id s = .error ∧
            ∀ item ∈ state, item.isComplete = true → item.lookahead ≠ s) ∨
          ∃ item rule, state.IsGreatestReduction p.grammar s item rule ∧
            p.table.action id s =
              if item.production = ⟨p.grammar.start, [g.start]⟩ then .accept else .reduce rule)) ∧
      ∀ s ∈ p.grammar.nonTerminals,
        (∀ target, p.table.action id s = .goto target ↔
          p.automaton.transition? id s = some target) ∧
        (p.automaton.transition? id s = none → p.table.action id s = .error)) ∧
    (∀ (id : Nat) s, s ∉ p.grammar.terminals → s ≠ .endMark → s ∉ p.grammar.nonTerminals →
      p.table.action id s = .error) ∧
    ∀ (id : Nat) s, p.automaton.stateCount ≤ id → p.table.action id s = .error := by
  have canonical := canonical_of_ofGrammar lhs kinds built
  have machine : p.machine.Canonical g.start p.automaton := canonical.machine
  have marks' : p.grammar.EndMarkIsTerminal := by
    rw [canonical.prepared]
    exact marks.prepare canonical.named
  have fresh : p.grammar.start ∉ p.grammar.occurrences := by
    rw [canonical.prepared]
    exact Grammar.start_not_mem_occurrences_prepare canonical.named
  have known : ∀ (id : Nat) s, p.table.action id s ≠ .error → id < p.automaton.states.length ∧
      (p.grammar.IsLookahead s ∨ s ∈ p.grammar.nonTerminals) :=
    fun _ _ => machine.known_of_action_ne_error
  refine ⟨fun id state stateAt => ⟨fun s lookahead => ⟨fun target =>
    machine.shift_of_isLookahead marks' lookahead, fun still => ?_⟩, fun s mem => ?_⟩,
    fun id s terminal mark nonTerminal => ?_, fun id s outside => ?_⟩
  · rcases machine.action_of_transition?_eq_none (fun _ _ => machine.lookahead_of_start fresh) stateAt
      lookahead still with nothing | ⟨item, rule, greatest, cell⟩
    · exact .inl nothing
    · have start := machine.lhs_eq_start_iff (machine.belongs ⟨state, stateAt, greatest.mem⟩)
      exact .inr ⟨item, rule, greatest, cell.trans (if_congr start rfl rfl)⟩
  · have cell : p.table.action id s = (p.automaton.transition? id s).elim .error .goto :=
      machine.action_of_nonTerminal mem id
    rw [cell]
    cases p.automaton.transition? id s with
    | none => exact ⟨fun target => ⟨nofun, nofun⟩, fun _ => rfl⟩
    | some next => exact ⟨fun target => by simp, nofun⟩
  · by_contra acts
    rcases (known id s acts).2 with (listed | rfl) | listed
    · exact terminal listed
    · exact mark rfl
    · exact nonTerminal listed
  · by_contra acts
    exact Nat.not_lt_of_le outside (known id s acts).1

/-- A sentence can be read as a chain of names and as a sum. -/
def chains : Grammar :=
  ((Grammar.ofStart (.nonTerminal "A")).pushAll (.nonTerminal "A")
    [[.nonTerminal "B"], [.terminal "n"]]).pushAll (.nonTerminal "B")
      [[.nonTerminal "A"], [.nonTerminal "A", .terminal "+", .nonTerminal "A"]]

/-- Behind `A`, the reduction by `B -> A` wins over accepting, and the shift of `+` over the
reduction. -/
theorem action_chains : chains.LeftHandSidesNonTerminal ∧ chains.OneKindPerName ∧
    chains.EndMarkIsTerminal ∧ ∃ p, ofGrammar chains = .ok p ∧
      ∃ state item, p.automaton.states[1]? = some state ∧
        state.IsGreatestReduction p.grammar .endMark item 3 ∧
        p.table.action 1 .endMark = .reduce 3 ∧ p.table.action 1 (.terminal "+") = .shift 4 ∧
        p.table.action 1 (.terminal "A") = .error := by
  have lhs : chains.LeftHandSidesNonTerminal := by decide +kernel
  have kinds : chains.OneKindPerName := by decide +kernel
  have marks : chains.EndMarkIsTerminal := by decide +kernel
  obtain ⟨p, built⟩ := exists_ofGrammar (g := chains) (by decide +kernel)
  obtain ⟨cells, others, _⟩ := action_spec lhs kinds marks built
  have computed := of_any_ofGrammar (f := fun p => decide (
    1 < p.automaton.states.length ∧ p.automaton.transition? 1 .endMark = none ∧
      p.automaton.transition? 1 (.terminal "+") = some 4 ∧
      .terminal "+" ∈ p.grammar.terminals ∧ .terminal "A" ∉ p.grammar.terminals ∧
      .terminal "A" ∉ p.grammar.nonTerminals ∧ p.table.action 1 .endMark = .reduce 3))
    built (by decide +kernel)
  obtain ⟨bound, still, step, plus, terminal, nonTerminal, cell⟩ := of_decide_eq_true computed
  have stateAt : p.automaton.states[1]? = some p.automaton.states[1] :=
    List.getElem?_eq_getElem bound
  have lookaheads := (cells 1 _ stateAt).1
  have shift := (lookaheads (.terminal "+") (.inl plus)).1 4 step
  have unknown := others 1 (.terminal "A") terminal (by decide) nonTerminal
  rcases (lookaheads .endMark (.inr rfl)).2 still with ⟨nothing, _⟩ | ⟨item, rule, greatest, action⟩
  · rw [cell] at nothing
    cases nothing
  · rw [cell] at action
    split at action
    · cases action
    · cases action
      exact ⟨lhs, kinds, marks, p, built, _, item, stateAt, greatest, cell, shift, unknown⟩

end Parser

end CanonicalLR
