import CanonicalLR.Automaton
import CanonicalLR.Machine
import CanonicalLR.Proofs.ActionTable.Cells
import CanonicalLR.Proofs.Automaton.Items

/-!
The actions of a machine, read in the items and transitions of its automaton. A shift or a goto is a
transition, a reduction or an acceptance is that of a complete item. A transition is always acted on.
Without one the complete item whose production comes last is acted on
(`action_of_transition?_eq_none`), and in an automaton without conflicts so is every complete item.
Where the start symbol stands in right-hand sides its complete items need not be acted on
(`action_of_complete_start`).
-/

set_option autoImplicit false
set_option relaxedAutoImplicit false

namespace CanonicalLR.Machine

/-- The machine of an augmented grammar with one kind for every name: its rules are the productions
in order, and its table is that of the grammar's automaton. -/
structure Canonical (m : Machine) (goal : Symbol) (a : Automaton) : Prop
    extends a.Canonical m.grammar goal where
  numbered : m.grammar.rules = m.grammar.productions.toList
  built : ActionTable.ofAutomaton m.grammar a = .ok m.table

/-- An augmented grammar with its rules numbered has an automaton, which is the collection of the states,
and a table. -/
theorem exists_parts {g : Grammar} (augmented : g.isAugmented = true)
    (numbered : g.rules = g.productions.toList) : ∃ goal a t,
      g.alternatives g.start = [[goal]] ∧ Automaton.ofGrammar g = .ok a ∧
        ActionTable.ofAutomaton g a = .ok t ∧
        Automaton.IsCollection g (Automaton.startState g [goal]) a := by
  obtain ⟨goal, a, alternatives, automaton, _, collection, within⟩ :=
    Automaton.exists_ofGrammar augmented
  obtain ⟨t, table⟩ := ActionTable.exists_ofAutomaton fun state mem item inside =>
    (within state mem item inside).exists_ruleNumber? numbered
  exact ⟨goal, a, t, alternatives, automaton, table, collection⟩

/-- An augmented grammar with one kind for every name and with its rules numbered makes a canonical
machine. -/
theorem exists_canonical {g : Grammar} (augmented : g.isAugmented = true)
    (lhs : g.LeftHandSidesNonTerminal) (kinds : g.OneKindPerName)
    (holds : g.firstTable.HoldsTerminals) (numbered : g.rules = g.productions.toList) :
    ∃ goal a t, Automaton.ofGrammar g = .ok a ∧ ActionTable.ofAutomaton g a = .ok t ∧
      (⟨g, t⟩ : Machine).Canonical goal a := by
  obtain ⟨goal, a, t, alternatives, automaton, table, collection⟩ := exists_parts augmented numbered
  exact ⟨goal, a, t, automaton, table, ⟨collection, lhs, kinds, holds, alternatives⟩, numbered,
    table⟩

namespace Canonical

variable {m : Machine} {goal : Symbol} {a : Automaton} (canonical : m.Canonical goal a)
include canonical

private theorem key_mem_occurrences {id : Nat} {state : ItemSet} {edges : SymbolMap Nat}
    (stateAt : a.states[id]? = some state) (edgesAt : a.transitions[id]? = some edges)
    {edge : Symbol × Nat} (mem : edge ∈ edges.toList) : edge.1 ∈ m.grammar.occurrences := by
  have listed := (canonical.edges id state edges stateAt edgesAt).keys edge mem
  obtain ⟨item, inside, rest, after⟩ := ItemSet.exists_item_of_mem_nextSymbols listed
  exact Item.next_mem_occurrences (canonical.belongs ⟨state, stateAt, inside⟩).production after

omit canonical in
private theorem edge_of_entry {edges : SymbolMap Nat} {s : Symbol} {column : Nat}
    (place : (Columns.ofGrammar m.grammar).find? s = some column) {action : Action}
    (mem : (some column, action) ∈ edges.toList.map (ActionTable.entryOfEdge m.grammar)) :
    ∃ target, (s, target) ∈ edges.toList ∧
      action = if s.isTerminal then .shift target else .goto target := by
  obtain ⟨⟨k, target⟩, edge, same⟩ := List.mem_map.mp mem
  obtain ⟨column', rfl⟩ := Prod.mk.inj same
  obtain rfl := Columns.eq_of_find? place column'
  exact ⟨target, edge, rfl⟩

private theorem cases_of_entry {item : Item} (belongs : item.Belongs m.grammar) {s : Symbol}
    {column : Nat} (place : (Columns.ofGrammar m.grammar).find? s = some column) {action : Action}
    (entry : ActionTable.entryOfItem? m.grammar item = some (some column, action)) :
    item.after = [] ∧
      ((item.lhs = m.grammar.start ∧ s = .endMark ∧ action = .accept) ∨
        (item.lhs ≠ m.grammar.start ∧ s = item.lookahead ∧ ∃ rule, action = .reduce rule ∧
          m.grammar.ruleNumber? item.production = some rule)) := by
  have terminal : ∀ u : Symbol, u.isTerminal = true →
      (Columns.ofGrammar m.grammar).terminals.find? u =
        (Columns.ofGrammar m.grammar).find? u := fun u kind => by simp [Columns.find?, kind]
  unfold ActionTable.entryOfItem? at entry
  by_cases complete : item.isComplete
  · refine ⟨List.isEmpty_iff.mp complete, ?_⟩
    by_cases start : item.lhs == m.grammar.start
    · simp only [complete, start, Bool.not_true, Bool.false_eq_true, if_false, if_true,
        Option.some.injEq, Prod.mk.injEq] at entry
      rw [terminal _ rfl] at entry
      exact .inl ⟨canonical.kinds _ (Grammar.lhs_mem_symbols belongs.production) _
        Grammar.start_mem_symbols (Symbol.beq_iff_name_eq.mp start),
        Columns.eq_of_find? place entry.1, entry.2.symm⟩
    · simp only [complete, start, Bool.not_true, Bool.false_eq_true, if_false,
        Option.map_eq_some_iff, Prod.mk.injEq] at entry
      obtain ⟨rule, number, column', rfl⟩ := entry
      rw [terminal _ belongs.lookahead] at column'
      exact .inr ⟨fun same => start (Symbol.beq_iff_name_eq.mpr (by rw [same])),
        Columns.eq_of_find? place column', rule, rfl, number⟩
  · simp [complete] at entry

private theorem entryOfItem?_of_complete {item : Item} (belongs : item.Belongs m.grammar)
    (complete : item.isComplete = true)
    (ending : item.lhs = m.grammar.start → item.lookahead = .endMark) {rule column : Nat}
    (number : m.grammar.ruleNumber? item.production = some rule)
    (place : (Columns.ofGrammar m.grammar).find? item.lookahead = some column) :
    ActionTable.entryOfItem? m.grammar item =
      some (some column, if item.lhs = m.grammar.start then .accept else .reduce rule) := by
  have columns : (Columns.ofGrammar m.grammar).terminals.find? item.lookahead = some column := by
    rwa [Columns.find?, if_pos belongs.lookahead] at place
  have same : item.lhs = m.grammar.start ↔ item.lhs == m.grammar.start := by
    rw [Symbol.beq_iff_name_eq]
    exact ⟨fun h => by rw [h], canonical.kinds _ (Grammar.lhs_mem_symbols belongs.production) _
      Grammar.start_mem_symbols⟩
  unfold ActionTable.entryOfItem?
  by_cases start : item.lhs == m.grammar.start
  · rw [ending (same.mpr start)] at columns
    simp [complete, start, same, columns]
  · simp [complete, start, same, columns, number]

omit canonical in
private theorem entry_of_edge {edges : SymbolMap Nat} {s : Symbol} {target column : Nat}
    (edge : (s, target) ∈ edges.toList)
    (place : (Columns.ofGrammar m.grammar).find? s = some column) :
    ActionTable.lastEntry (edges.toList.map (ActionTable.entryOfEdge m.grammar)) column =
      some (if s.isTerminal then .shift target else .goto target) := by
  refine ActionTable.lastEntry_eq_some (List.mem_map.mpr ⟨(s, target), edge, ?_⟩)
    fun other mem => ?_
  · simp [ActionTable.entryOfEdge, place]
  · obtain ⟨target', edge', rfl⟩ := edge_of_entry place mem
    rw [Option.some.inj ((SymbolMap.find?_of_mem edge).symm.trans (SymbolMap.find?_of_mem edge'))]

/-- On a symbol of the grammar that it has a transition on, a state shifts or goes over. -/
private theorem action_of_transition? {id target : Nat} {s : Symbol}
    (step : a.transition? id s = some target) (known : s ∈ m.grammar.symbols) {column : Nat}
    (place : (Columns.ofGrammar m.grammar).find? s = some column) :
    m.table.action id s = if s.isTerminal then .shift target else .goto target := by
  cases edgesAt : a.transitions[id]? with
  | none => simp [Automaton.transition?, edgesAt] at step
  | some edges =>
    simp only [Automaton.transition?, edgesAt] at step
    have bound := (List.getElem?_eq_some_iff.mp edgesAt).1
    rw [canonical.complete] at bound
    have stateAt : a.states[id]? = some a.states[id] := List.getElem?_eq_getElem bound
    obtain ⟨k, edge, name⟩ := SymbolMap.exists_mem_of_find? step
    have occurs := canonical.key_mem_occurrences stateAt edgesAt edge
    obtain rfl := canonical.kinds s known k (Grammar.occurrences_subset_symbols occurs) name
    rw [ActionTable.action_eq canonical.built stateAt edgesAt place,
      entry_of_edge edge place]
    rfl

theorem shift_of_transition? {id target : Nat} {s : Symbol}
    (step : a.transition? id s = some target) (mem : s ∈ m.grammar.terminals) :
    m.table.action id s = .shift target := by
  obtain ⟨occurs, terminal⟩ := Grammar.mem_terminals.mp mem
  obtain ⟨column, place⟩ := Columns.exists_find?_of_terminal (.inl mem)
  rw [canonical.action_of_transition? step (Grammar.occurrences_subset_symbols occurs) place,
    if_pos terminal]

theorem goto_of_transition? {id target : Nat} {s : Symbol}
    (step : a.transition? id s = some target) (mem : s ∈ m.grammar.nonTerminals) :
    m.table.action id s = .goto target := by
  have kind := Grammar.isNonTerminal_of_mem_nonTerminals canonical.lhs mem
  have known : s ∈ m.grammar.symbols := by
    rcases (Grammar.mem_nonTerminals canonical.lhs).mp mem with ⟨production, here, rfl⟩ | ⟨here, _⟩
    · exact Grammar.lhs_mem_symbols here
    · exact Grammar.occurrences_subset_symbols here
  obtain ⟨column, place⟩ := Columns.exists_find?_of_nonTerminal canonical.lhs mem
  rw [canonical.action_of_transition? step known place, Symbol.isTerminal_eq_not, kind]
  rfl

/-- What an action other than an error was entered for: a transition on the symbol, or a complete item
of the state. -/
theorem origin_of_action {id : Nat} {s : Symbol} (h : m.table.action id s ≠ .error) :
    (∃ target, s ∈ m.grammar.occurrences ∧ a.transition? id s = some target ∧
      m.table.action id s = if s.isTerminal then .shift target else .goto target) ∨
    ∃ item, a.HasItem id item ∧ item.after = [] ∧
      ((item.lhs = m.grammar.start ∧ s = .endMark ∧ m.table.action id s = .accept) ∨
        (item.lhs ≠ m.grammar.start ∧ s = item.lookahead ∧ ∃ rule,
          m.table.action id s = .reduce rule ∧
            m.grammar.rule? rule = some item.production)) := by
  obtain ⟨state, edges, column, stateAt, edgesAt, place⟩ :=
    ActionTable.exists_of_action_ne_error canonical.built h
  have cell := ActionTable.action_eq canonical.built stateAt edgesAt place
  cases last : ActionTable.lastEntry
      (edges.toList.map (ActionTable.entryOfEdge m.grammar)) column with
  | some action =>
    rw [last] at cell
    obtain ⟨target, edge, rfl⟩ :=
      edge_of_entry place (ActionTable.exists_of_lastEntry last)
    refine .inl ⟨target, canonical.key_mem_occurrences stateAt edgesAt edge, ?_, cell⟩
    rw [Automaton.transition?, edgesAt]
    exact SymbolMap.find?_of_mem edge
  | none =>
    cases first : ActionTable.lastEntry
        (state.toList.filterMap (ActionTable.entryOfItem? m.grammar)) column with
    | none =>
      rw [last, first] at cell
      exact absurd cell h
    | some action =>
      rw [last, first] at cell
      obtain ⟨item, inside, entry⟩ := List.mem_filterMap.mp (ActionTable.exists_of_lastEntry first)
      obtain ⟨after, entered⟩ :=
        canonical.cases_of_entry (canonical.belongs ⟨state, stateAt, inside⟩) place entry
      refine .inr ⟨item, ⟨state, stateAt, inside⟩, after, ?_⟩
      rcases entered with ⟨start, mark, rfl⟩ | ⟨other, lookahead, rule, rfl, number⟩
      · exact .inl ⟨start, mark, cell⟩
      · exact .inr ⟨other, lookahead, rule, cell, Grammar.rule?_of_ruleNumber? canonical.kinds
          canonical.numbered (canonical.belongs ⟨state, stateAt, inside⟩).production number⟩

theorem transition?_of_shift {id target : Nat} {s : Symbol}
    (h : m.table.action id s = .shift target) :
    s ∈ m.grammar.terminals ∧ a.transition? id s = some target := by
  have acts : m.table.action id s ≠ .error := by simp [h]
  rcases canonical.origin_of_action acts with ⟨t, occurs, step, cell⟩ | ⟨item, _, _, rest⟩
  · rw [h] at cell
    split at cell
    · next terminal =>
      cases cell
      exact ⟨Grammar.mem_terminals.mpr ⟨occurs, terminal⟩, step⟩
    · cases cell
  · rcases rest with ⟨_, _, cell⟩ | ⟨_, _, rule, cell, _⟩ <;> rw [h] at cell <;> cases cell

theorem transition?_of_goto {id target : Nat} {s : Symbol}
    (h : m.table.action id s = .goto target) :
    s ∈ m.grammar.occurrences ∧ s.isNonTerminal = true ∧ a.transition? id s = some target := by
  have acts : m.table.action id s ≠ .error := by simp [h]
  rcases canonical.origin_of_action acts with ⟨t, occurs, step, cell⟩ | ⟨item, _, _, rest⟩
  · rw [h] at cell
    split at cell
    · cases cell
    · next other =>
      cases cell
      rw [Symbol.isTerminal_eq_not] at other
      exact ⟨occurs, by simpa using other, step⟩
  · rcases rest with ⟨_, _, cell⟩ | ⟨_, _, rule, cell, _⟩ <;> rw [h] at cell <;> cases cell

/-- A reduction is that of a complete item with the symbol as lookahead. -/
theorem item_of_reduce {id rule : Nat} {s : Symbol} (h : m.table.action id s = .reduce rule) :
    ∃ item, a.HasItem id item ∧ item.after = [] ∧ item.lhs ≠ m.grammar.start ∧
      s = item.lookahead ∧ m.grammar.rule? rule = some item.production := by
  have acts : m.table.action id s ≠ .error := by simp [h]
  rcases canonical.origin_of_action acts with ⟨t, _, _, cell⟩ | ⟨item, here, after, rest⟩
  · rw [h] at cell
    split at cell <;> cases cell
  · rcases rest with ⟨_, _, cell⟩ | ⟨other, lookahead, rule', cell, number⟩
    · rw [h] at cell
      cases cell
    · rw [h] at cell
      cases cell
      exact ⟨item, here, after, other, lookahead, number⟩

/-- An acceptance is that of a complete item of the start symbol, at the end mark. -/
theorem item_of_accept {id : Nat} {s : Symbol} (h : m.table.action id s = .accept) :
    s = .endMark ∧ ∃ item, a.HasItem id item ∧ item.after = [] ∧
      item.lhs = m.grammar.start := by
  have acts : m.table.action id s ≠ .error := by simp [h]
  rcases canonical.origin_of_action acts with ⟨t, _, _, cell⟩ | ⟨item, here, after, rest⟩
  · rw [h] at cell
    split at cell <;> cases cell
  · rcases rest with ⟨start, mark, _⟩ | ⟨_, _, rule, cell, _⟩
    · exact ⟨mark, item, here, after, start⟩
    · rw [h] at cell
      cases cell

private theorem exists_edges {id : Nat} {state : ItemSet} (stateAt : a.states[id]? = some state) :
    ∃ edges, a.transitions[id]? = some edges := by
  have bound := (List.getElem?_eq_some_iff.mp stateAt).1
  rw [← canonical.complete] at bound
  exact ⟨_, List.getElem?_eq_getElem bound⟩

/-- On the lookahead of a complete item a state acts, unless the item is the start symbol's and has
another lookahead than the end mark. -/
private theorem action_ne_error_of_complete {id : Nat} {item : Item} (here : a.HasItem id item)
    (after : item.after = []) (ending : item.lhs = m.grammar.start → item.lookahead = .endMark)
    (known : m.grammar.IsLookahead item.lookahead) : m.table.action id item.lookahead ≠ .error := by
  obtain ⟨state, stateAt, inside⟩ := here
  obtain ⟨edges, edgesAt⟩ := canonical.exists_edges stateAt
  have belongs : ∀ item ∈ state, item.Belongs m.grammar := fun item inside =>
    canonical.belongs ⟨state, stateAt, inside⟩
  obtain ⟨column, place⟩ := Columns.exists_find?_of_terminal known
  obtain ⟨rule, number⟩ :=
    Grammar.exists_ruleNumber? canonical.numbered (belongs item inside).production
  have entry := canonical.entryOfItem?_of_complete (belongs item inside)
    (List.isEmpty_iff.mpr after) ending number place
  rw [ActionTable.action_eq canonical.built stateAt edgesAt place]
  cases edge : ActionTable.lastEntry
      (edges.toList.map (ActionTable.entryOfEdge m.grammar)) column with
  | some action =>
    obtain ⟨target, _, rfl⟩ := edge_of_entry place (ActionTable.exists_of_lastEntry edge)
    split <;> simp
  | none =>
    cases last : ActionTable.lastEntry
        (state.toList.filterMap (ActionTable.entryOfItem? m.grammar)) column with
    | none =>
      exact absurd (List.mem_filterMap.mpr ⟨item, inside, entry⟩)
        (ActionTable.not_mem_of_lastEntry_eq_none last _)
    | some action =>
      obtain ⟨other, there, entry'⟩ := List.mem_filterMap.mp (ActionTable.exists_of_lastEntry last)
      rcases (canonical.cases_of_entry (belongs other there) place entry').2 with
        ⟨_, _, rfl⟩ | ⟨_, _, rule', rfl, _⟩ <;> simp

section ConflictFree

variable (free : a.ConflictFree)
include free

/-- What it means for a state to have no conflicts. -/
private theorem conflictFree_state {id : Nat} {state : ItemSet}
    (stateAt : a.states[id]? = some state) : state.OneReductionEach ∧
      ∀ item ∈ state, item.isComplete = true → a.transition? id item.lookahead = none := by
  obtain ⟨edges, edgesAt⟩ := canonical.exists_edges stateAt
  obtain ⟨oneEach, either⟩ := free (state, edges)
    (List.mem_of_getElem? (List.getElem?_zip_eq_some.mpr ⟨stateAt, edgesAt⟩))
  refine ⟨oneEach, fun item inside complete => ?_⟩
  rw [Automaton.transition?, edgesAt]
  exact either item inside complete

/-- Where there are no conflicts, another action than an error on the lookahead of a complete item is
that item's, or the acceptance that any complete item of the start symbol enters at the end mark. -/
private theorem cases_of_complete {id : Nat} {item : Item} (here : a.HasItem id item)
    (after : item.after = []) (acts : m.table.action id item.lookahead ≠ .error) :
    (item.lookahead = .endMark ∧ m.table.action id item.lookahead = .accept) ∨
      item.lhs ≠ m.grammar.start ∧ ∃ rule, m.table.action id item.lookahead = .reduce rule ∧
        m.grammar.rule? rule = some item.production := by
  obtain ⟨state, stateAt, inside⟩ := here
  obtain ⟨oneEach, still⟩ := canonical.conflictFree_state free stateAt
  have complete : item.isComplete = true := List.isEmpty_iff.mpr after
  rcases canonical.origin_of_action acts with ⟨target, _, step, _⟩ | ⟨other, there, ends, cause⟩
  · rw [still item inside complete] at step
    cases step
  · rcases cause with ⟨_, mark, accepts⟩ | ⟨different, lookahead, reduces⟩
    · exact .inl ⟨mark, accepts⟩
    · obtain ⟨state', stateAt', inside'⟩ := there
      obtain rfl := Option.some.inj (stateAt.symm.trans stateAt')
      obtain rfl := oneEach item inside other inside' complete (List.isEmpty_iff.mpr ends)
        (Symbol.beq_iff_name_eq.mpr (by rw [lookahead]))
      exact .inr ⟨different, reduces⟩

/-- Where there are no conflicts, a complete item of the start symbol is accepted at the end mark, and
at any other lookahead there is an error. -/
theorem action_of_complete_start {id : Nat} {item : Item} (here : a.HasItem id item)
    (after : item.after = []) (start : item.lhs = m.grammar.start) :
    (item.lookahead = .endMark ∧ m.table.action id item.lookahead = .accept) ∨
      item.lookahead ≠ .endMark ∧ m.table.action id item.lookahead = .error := by
  by_cases mark : item.lookahead = .endMark
  · have acts := canonical.action_ne_error_of_complete here after (fun _ => mark)
      (mark ▸ .inr rfl)
    exact .inl ((canonical.cases_of_complete free here after acts).resolve_right
      fun other => other.1 start)
  · refine .inr ⟨mark, ?_⟩
    by_contra acts
    rcases canonical.cases_of_complete free here after acts with ⟨ends, _⟩ | ⟨other, _⟩
    · exact mark ends
    · exact other start

/-- Where there are no conflicts, a complete item of another symbol is reduced, unless the machine
accepts at the end mark instead. -/
theorem action_of_complete_other {id : Nat} {item : Item} (here : a.HasItem id item)
    (after : item.after = []) (known : m.grammar.IsLookahead item.lookahead)
    (other : item.lhs ≠ m.grammar.start) :
    (item.lookahead = .endMark ∧ m.table.action id item.lookahead = .accept) ∨
      ∃ rule, m.table.action id item.lookahead = .reduce rule ∧
        m.grammar.rule? rule = some item.production := by
  have acts :=
    canonical.action_ne_error_of_complete here after (fun start => absurd start other) known
  exact (canonical.cases_of_complete free here after acts).imp_right And.right

end ConflictFree

section Complete

variable
  (ending : ∀ id item, a.HasItem id item → item.lhs = m.grammar.start → item.lookahead = .endMark)
include ending

/-- Where the start symbol's items end at the end mark, a state without a transition on a lookahead
acts on the complete item whose production has the greatest rule number, if there is one. -/
theorem action_of_transition?_eq_none {id : Nat} {state : ItemSet}
    (stateAt : a.states[id]? = some state) {s : Symbol} (known : m.grammar.IsLookahead s)
    (still : a.transition? id s = none) :
    (m.table.action id s = .error ∧
      ∀ item ∈ state, item.isComplete = true → item.lookahead ≠ s) ∨
    ∃ item rule, state.IsGreatestReduction m.grammar s item rule ∧
      m.table.action id s = if item.lhs = m.grammar.start then .accept else .reduce rule := by
  obtain ⟨edges, edgesAt⟩ := canonical.exists_edges stateAt
  obtain ⟨column, place⟩ := Columns.exists_find?_of_terminal known
  have noEdge : ActionTable.lastEntry
      (edges.toList.map (ActionTable.entryOfEdge m.grammar)) column = none := by
    refine ActionTable.lastEntry_eq_none fun action mem => ?_
    obtain ⟨target, edge, _⟩ := edge_of_entry place mem
    rw [Automaton.transition?, edgesAt] at still
    cases (SymbolMap.find?_of_mem edge).symm.trans still
  have cell := ActionTable.action_eq canonical.built stateAt edgesAt place
  rw [noEdge, Option.none_or] at cell
  have belongs : ∀ item ∈ state, item.Belongs m.grammar := fun item inside =>
    canonical.belongs ⟨state, stateAt, inside⟩
  have entered : ∀ item ∈ state, item.isComplete = true → item.lookahead = s →
      ∃ rule, m.grammar.ruleNumber? item.production = some rule ∧
        ActionTable.entryOfItem? m.grammar item =
          some (some column, if item.lhs = m.grammar.start then .accept else .reduce rule) := by
    rintro item inside complete rfl
    obtain ⟨rule, number⟩ :=
      Grammar.exists_ruleNumber? canonical.numbered (belongs item inside).production
    exact ⟨rule, number, canonical.entryOfItem?_of_complete (belongs item inside) complete
      (ending id item ⟨state, stateAt, inside⟩) number place⟩
  cases last : ActionTable.lastEntry
      (state.toList.filterMap (ActionTable.entryOfItem? m.grammar)) column with
  | none =>
    rw [last] at cell
    refine .inl ⟨cell, fun item inside complete same => ?_⟩
    obtain ⟨rule, _, entry⟩ := entered item inside complete same
    exact ActionTable.not_mem_of_lastEntry_eq_none last _
      (List.mem_filterMap.mpr ⟨item, inside, entry⟩)
  | some action =>
    rw [last, Option.getD_some] at cell
    obtain ⟨front, item, back, split, entry, behind⟩ :=
      ActionTable.exists_of_lastEntry_filterMap last
    have inside : item ∈ state := by
      rw [OrderedSet.mem_def, split]
      exact List.mem_append_right _ (List.mem_cons_self ..)
    obtain ⟨after, cause⟩ := canonical.cases_of_entry (belongs item inside) place entry
    have complete : item.isComplete = true := List.isEmpty_iff.mpr after
    have lookahead : item.lookahead = s := by
      rcases cause with ⟨start, mark, _⟩ | ⟨_, same, _⟩
      · rw [ending id item ⟨state, stateAt, inside⟩ start, mark]
      · exact same.symm
    obtain ⟨rule, number, entry'⟩ := entered item inside complete lookahead
    have own : action = if item.lhs = m.grammar.start then .accept else .reduce rule :=
      (Prod.mk.inj (Option.some.inj (entry.symm.trans entry'))).2
    refine .inr ⟨item, rule, ⟨inside, complete, lookahead, number, ?_⟩, cell.trans own⟩
    intro other there complete' lookahead'
    obtain ⟨n, number', entry''⟩ := entered other there complete' lookahead'
    refine ⟨n, ?_, number'⟩
    have listed := there
    rw [OrderedSet.mem_def, split, List.mem_append, List.mem_cons] at listed
    rcases listed with earlier | rfl | later
    · -- Items before this one have productions before or at its own, for the item order compares
      -- productions first.
      have ascending := state.ascending
      rw [split, List.pairwise_append] at ascending
      have lt := ascending.2.2 other earlier item (List.mem_cons_self ..)
      exact Grammar.ruleNumber?_le canonical.kinds canonical.numbered (belongs other there).production
        (belongs item inside).production (Item.compare_production_ne_gt lt) number' number
    · exact Nat.le_of_eq (Option.some.inj (number'.symm.trans number))
    · exact absurd entry'' (behind other later _)

/-- Where the start symbol's items end at the end mark, an automaton without conflicts acts on every
complete item at its lookahead. -/
theorem action_of_complete (free : a.ConflictFree) {id : Nat} {item : Item}
    (here : a.HasItem id item) (after : item.after = [])
    (known : m.grammar.IsLookahead item.lookahead) :
    (item.lhs = m.grammar.start ∧ m.table.action id item.lookahead = .accept) ∨
      item.lhs ≠ m.grammar.start ∧ ∃ rule, m.table.action id item.lookahead = .reduce rule ∧
        m.grammar.rule? rule = some item.production := by
  obtain ⟨state, stateAt, inside⟩ := here
  obtain ⟨oneEach, still⟩ := canonical.conflictFree_state free stateAt
  have complete : item.isComplete = true := List.isEmpty_iff.mpr after
  rcases canonical.action_of_transition?_eq_none ending stateAt known
    (still item inside complete) with
    ⟨_, none⟩ | ⟨other, rule, greatest, cell⟩
  · exact absurd rfl (none item inside complete)
  · obtain rfl := oneEach item inside other greatest.mem complete greatest.complete
      (Symbol.beq_iff_name_eq.mpr (by rw [greatest.lookahead]))
    by_cases start : item.lhs = m.grammar.start
    · rw [if_pos start] at cell
      exact .inl ⟨start, cell⟩
    · rw [if_neg start] at cell
      exact .inr ⟨start, rule, cell, Grammar.rule?_of_ruleNumber? canonical.kinds
        canonical.numbered (canonical.belongs ⟨state, stateAt, inside⟩).production greatest.number⟩

end Complete

end Canonical

end CanonicalLR.Machine
