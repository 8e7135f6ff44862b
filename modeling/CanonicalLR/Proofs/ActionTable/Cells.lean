import CanonicalLR.ActionTable
import CanonicalLR.Proofs.ItemSet.Closure
import CanonicalLR.Proofs.Traversal

/-!
The cells of an action table. Different symbols have different columns, and a cell holds the last
entry that was made in its column, of the transitions of its state or else of its items
(`action_eq`).
-/

set_option autoImplicit false
set_option relaxedAutoImplicit false

namespace CanonicalLR

namespace Columns

variable {g : Grammar}

theorem find?_terminal {s : Symbol} (kind : s.isTerminal = true) (columns : Columns) :
    columns.find? s = columns.terminals.find? s := by
  simp [find?, kind]

theorem find?_nonTerminal {s : Symbol} (kind : s.isNonTerminal = true)
    (columns : Columns) : columns.find? s = columns.nonTerminals.find? s := by
  simp [find?, Symbol.isTerminal_eq_not, kind]

theorem find?_endMark : (ofGrammar g).terminals.find? .endMark = some (endColumn g) := by
  simp [ofGrammar, SymbolMap.find?_ofList]

/-- Under any name but that of the end mark, the column of a terminal is the place of the name. -/
theorem find?_terminals_of_ne {s : Symbol} (other : s.isEndMark = false) {column : Nat} :
    (ofGrammar g).terminals.find? s = some column ↔
      1 ≤ column ∧ ∃ k, g.terminals.toList[column - 1]? = some k ∧ s.name = k.name := by
  have passed : (ofGrammar g).terminals.find? s =
      (SymbolMap.ofList (g.terminals.toList.zipIdx 1)).find? s := by
    have apart : (s == Symbol.endMark) = false := other
    simp [ofGrammar, SymbolMap.find?_ofList, apart]
  rw [passed, SymbolMap.find?_ofList_zipIdx g.terminals.ascending]

private theorem find?_terminals {s : Symbol} {column : Nat}
    (h : (ofGrammar g).terminals.find? s = some column) :
    (∃ k, 1 ≤ column ∧ g.terminals.toList[column - 1]? = some k ∧ s.name = k.name) ∨
      column = endColumn g ∧ s.name = "$" := by
  cases mark : s.isEndMark with
  | true =>
    have name : s.name = Symbol.endMark.name := beq_iff_eq.mp mark
    rw [SymbolMap.find?_congr _ name, find?_endMark] at h
    exact .inr ⟨(Option.some.inj h).symm, name⟩
  | false =>
    obtain ⟨low, k, found, name⟩ := (find?_terminals_of_ne mark).mp h
    exact .inl ⟨k, low, found, name⟩

theorem find?_nonTerminals {s : Symbol} {column : Nat} :
    (ofGrammar g).nonTerminals.find? s = some column ↔
      endColumn g + 1 ≤ column ∧
        ∃ k, g.nonTerminals.toList[column - (endColumn g + 1)]? = some k ∧ s.name = k.name :=
  SymbolMap.find?_ofList_zipIdx g.nonTerminals.ascending

private theorem le_endColumn {s : Symbol} {column : Nat}
    (h : (ofGrammar g).terminals.find? s = some column) : column ≤ endColumn g := by
  rcases find?_terminals h with ⟨k, low, found, _⟩ | ⟨rfl, _⟩
  · have bound := (List.getElem?_eq_some_iff.mp found).1
    simp only [endColumn, OrderedSet.size]
    omega
  · exact Nat.le_refl _

private theorem name_eq_of_terminals {s t : Symbol} {column : Nat}
    (hs : (ofGrammar g).terminals.find? s = some column)
    (ht : (ofGrammar g).terminals.find? t = some column) : s.name = t.name := by
  have apart : ∀ k, 1 ≤ column → g.terminals.toList[column - 1]? = some k →
      column ≠ endColumn g := by
    intro k low found same
    have bound := (List.getElem?_eq_some_iff.mp found).1
    simp only [same, endColumn, OrderedSet.size] at bound
    omega
  rcases find?_terminals hs with ⟨k, low, found, name⟩ | ⟨last, name⟩
  · rcases find?_terminals ht with ⟨k', _, found', name'⟩ | ⟨last, _⟩
    · rw [name, name', Option.some.inj (found.symm.trans found')]
    · exact absurd last (apart k low found)
  · rcases find?_terminals ht with ⟨k', low, found', _⟩ | ⟨_, name'⟩
    · exact absurd last (apart k' low found')
    · rw [name, name']

/-- Symbols with one column are one. -/
theorem eq_of_find? {s t : Symbol} {column : Nat} (hs : (ofGrammar g).find? s = some column)
    (ht : (ofGrammar g).find? t = some column) : s = t := by
  have kinds : ∀ u : Symbol, u.isTerminal = true ∨ u.isNonTerminal = true := fun u => by
    rw [Symbol.isTerminal_eq_not]
    cases u.isNonTerminal <;> simp
  have across : ∀ u v : Symbol, u.isTerminal = true → v.isNonTerminal = true →
      (ofGrammar g).find? u = some column → (ofGrammar g).find? v = some column → False := by
    intro u v hu hv foundU foundV
    rw [find?_terminal hu] at foundU
    rw [find?_nonTerminal hv] at foundV
    have low := (find?_nonTerminals.mp foundV).1
    have high := le_endColumn foundU
    omega
  rcases kinds s with ks | ks <;> rcases kinds t with kt | kt
  · rw [find?_terminal ks] at hs
    rw [find?_terminal kt] at ht
    exact Symbol.eq_of_name_of_kind (name_eq_of_terminals hs ht)
      ((Symbol.isTerminal_iff.mp ks).trans (Symbol.isTerminal_iff.mp kt).symm)
  · exact (across s t ks kt hs ht).elim
  · exact (across t s kt ks ht hs).elim
  · rw [find?_nonTerminal ks] at hs
    rw [find?_nonTerminal kt] at ht
    obtain ⟨_, k, found, name⟩ := find?_nonTerminals.mp hs
    obtain ⟨_, k', found', name'⟩ := find?_nonTerminals.mp ht
    refine Symbol.eq_of_name_of_kind ?_
      ((Symbol.isNonTerminal_iff.mp ks).trans (Symbol.isNonTerminal_iff.mp kt).symm)
    rw [name, name', Option.some.inj (found.symm.trans found')]

theorem lt_rowLength {s : Symbol} {column : Nat} (h : (ofGrammar g).find? s = some column) :
    column < rowLength g := by
  by_cases kind : s.isTerminal
  · rw [find?_terminal kind] at h
    have bound := le_endColumn h
    simp only [rowLength]
    omega
  · rw [Symbol.isTerminal_eq_not] at kind
    rw [find?_nonTerminal (by simpa using kind)] at h
    obtain ⟨low, k, found, _⟩ := find?_nonTerminals.mp h
    have bound := (List.getElem?_eq_some_iff.mp found).1
    simp only [rowLength, OrderedSet.size]
    omega

theorem exists_find?_of_terminal {s : Symbol} (h : g.IsLookahead s) :
    ∃ column, (ofGrammar g).find? s = some column := by
  rcases h with mem | rfl
  · rw [find?_terminal (Grammar.mem_terminals.mp mem).2]
    obtain ⟨i, bound, rfl⟩ := List.mem_iff_getElem.mp mem
    have entry : (g.terminals.toList[i], 1 + i) ∈ g.terminals.toList.zipIdx 1 :=
      List.mk_add_mem_zipIdx_iff_getElem?.mpr (List.getElem?_eq_getElem bound)
    exact SymbolMap.exists_find?_ofList (List.mem_append_left _ entry) rfl
  · rw [find?_terminal rfl]
    exact SymbolMap.exists_find?_ofList
      (List.mem_append_right _ (List.mem_singleton.mpr rfl)) rfl

theorem exists_find?_of_nonTerminal (lhs : g.LeftHandSidesNonTerminal) {s : Symbol}
    (h : s ∈ g.nonTerminals) : ∃ column, (ofGrammar g).find? s = some column := by
  rw [find?_nonTerminal (Grammar.isNonTerminal_of_mem_nonTerminals lhs h)]
  obtain ⟨i, here⟩ := List.mem_iff_getElem?.mp h
  refine ⟨endColumn g + 1 + i, find?_nonTerminals.mpr ⟨Nat.le_add_right _ i, s, ?_, rfl⟩⟩
  rwa [Nat.add_sub_cancel_left]

/-- Only the lookaheads and the non-terminals of the grammar have a column. -/
theorem cases_of_find? (lhs : g.LeftHandSidesNonTerminal) {s : Symbol} {column : Nat}
    (h : (ofGrammar g).find? s = some column) : g.IsLookahead s ∨ s ∈ g.nonTerminals := by
  by_cases kind : s.isTerminal = true
  · rw [find?_terminal kind] at h
    have same : ∀ k : Symbol, k.isTerminal = true → s.name = k.name → s = k := fun k hk name =>
      Symbol.distinguishes_terminal s k kind hk (Symbol.compare_eq_iff_name_eq.mpr name)
    rcases find?_terminals h with ⟨k, _, found, name⟩ | ⟨_, name⟩
    · have listed : k ∈ g.terminals := List.mem_of_getElem? found
      rw [same k (Grammar.mem_terminals.mp listed).2 name]
      exact .inl (.inl listed)
    · exact .inl (.inr (same .endMark rfl name))
  · rw [Symbol.isTerminal_eq_not, Bool.not_eq_true', Bool.not_eq_false] at kind
    rw [find?_nonTerminal kind] at h
    obtain ⟨_, k, found, name⟩ := find?_nonTerminals.mp h
    have listed : k ∈ g.nonTerminals := List.mem_of_getElem? found
    rw [Symbol.distinguishes_nonTerminal s k kind
      (Grammar.isNonTerminal_of_mem_nonTerminals lhs listed)
      (Symbol.compare_eq_iff_name_eq.mpr name)]
    exact .inr listed

end Columns

namespace ActionTable

/-- An entry of a row: the column, if there is one, and the action. -/
abbrev Entry := Option Nat × Action

def lastEntry (entries : List Entry) (column : Nat) : Option Action :=
  (entries.reverse.find? fun entry => entry.1 == some column).map Prod.snd

theorem exists_of_lastEntry {entries : List Entry} {column : Nat} {action : Action}
    (h : lastEntry entries column = some action) : (some column, action) ∈ entries := by
  obtain ⟨⟨place, _⟩, found, rfl⟩ := Option.map_eq_some_iff.mp h
  obtain rfl : place = some column := by simpa using List.find?_some found
  exact List.mem_reverse.mp (List.mem_of_find?_eq_some found)

theorem lastEntry_eq_none {entries : List Entry} {column : Nat}
    (h : ∀ action, (some column, action) ∉ entries) : lastEntry entries column = none := by
  cases found : lastEntry entries column with
  | none => rfl
  | some action => exact absurd (exists_of_lastEntry found) (h action)

theorem not_mem_of_lastEntry_eq_none {entries : List Entry} {column : Nat}
    (h : lastEntry entries column = none) (action : Action) : (some column, action) ∉ entries := by
  intro mem
  have absent := List.find?_eq_none.mp (Option.map_eq_none_iff.mp h) _ (List.mem_reverse.mpr mem)
  exact absent (beq_self_eq_true (some column))

/-- Where all entries in a column are of one action, that one is the last. -/
theorem lastEntry_eq_some {entries : List Entry} {column : Nat} {action : Action}
    (mem : (some column, action) ∈ entries)
    (only : ∀ other, (some column, other) ∈ entries → other = action) :
    lastEntry entries column = some action := by
  cases last : lastEntry entries column with
  | none => exact absurd mem (not_mem_of_lastEntry_eq_none last action)
  | some other => rw [only other (exists_of_lastEntry last)]

theorem lastEntry_cons (entry : Entry) (entries : List Entry) (column : Nat) :
    lastEntry (entry :: entries) column = (lastEntry entries column).or
      (if entry.1 == some column then some entry.2 else none) := by
  unfold lastEntry
  rw [List.reverse_cons, List.find?_append, List.find?_singleton]
  cases entries.reverse.find? fun entry => entry.1 == some column with
  | some found => rfl
  | none => by_cases here : entry.1 == some column <;> simp [here]

/-- The last entry in a column is that of some value, behind which no value has one there. -/
theorem exists_of_lastEntry_filterMap {α : Type} {f : α → Option Entry} {l : List α}
    {column : Nat} {action : Action} (h : lastEntry (l.filterMap f) column = some action) :
    ∃ front x back, l = front ++ x :: back ∧ f x = some (some column, action) ∧
      ∀ y ∈ back, ∀ other, f y ≠ some (some column, other) := by
  induction l with
  | nil => cases h
  | cons x l ih =>
    have later : lastEntry (l.filterMap f) column = some action → ∃ front y back,
        x :: l = front ++ y :: back ∧ f y = some (some column, action) ∧
          ∀ z ∈ back, ∀ other, f z ≠ some (some column, other) := by
      intro last
      obtain ⟨front, y, back, rfl, entry, behind⟩ := ih last
      exact ⟨x :: front, y, back, rfl, entry, behind⟩
    cases entry : f x with
    | none =>
      rw [List.filterMap_cons_none entry] at h
      exact later h
    | some made =>
      rw [List.filterMap_cons_some entry, lastEntry_cons] at h
      cases last : lastEntry (l.filterMap f) column with
      | some other =>
        rw [last] at h
        exact later (last.trans h)
      | none =>
        rw [last, Option.none_or] at h
        split at h
        · next here =>
          obtain ⟨place, made⟩ := made
          obtain rfl : place = some column := by simpa using here
          obtain rfl := Option.some.inj h
          refine ⟨[], x, l, rfl, entry, fun y mem other has => ?_⟩
          exact not_mem_of_lastEntry_eq_none last other (List.mem_filterMap.mpr ⟨y, mem, has⟩)
        · cases h

private theorem length_enter (column : Option Nat) (action : Action) (row : List Action) :
    (enter column action row).length = row.length := by
  cases column <;> simp [enter]

private theorem length_foldl_enter (entries : List Entry) (row : List Action) :
    (entries.foldl (fun row entry => enter entry.1 entry.2 row) row).length = row.length := by
  induction entries generalizing row with
  | nil => rfl
  | cons entry entries ih => rw [List.foldl_cons, ih, length_enter]

/-- After entries have been made, a cell holds the last one in its column. -/
private theorem getD_foldl_enter (entries : List Entry) {row : List Action} {column : Nat}
    (bound : column < row.length) :
    (entries.foldl (fun row entry => enter entry.1 entry.2 row) row).getD column .error =
      (lastEntry entries column).getD (row.getD column .error) := by
  induction entries generalizing row with
  | nil => rfl
  | cons entry entries ih =>
    obtain ⟨place, action⟩ := entry
    rw [List.foldl_cons, ih (by rwa [length_enter])]
    rw [lastEntry_cons]
    cases lastEntry entries column with
    | some found => rfl
    | none =>
      cases place with
      | none => rfl
      | some place =>
        by_cases same : place = column
        · subst same
          simp [enter, List.getD_eq_getElem?_getD, bound]
        · simp [enter, List.getD_eq_getElem?_getD, same]

/-- What is entered for an item. -/
def entryOfItem? (g : Grammar) (item : Item) : Option Entry :=
  let columns := Columns.ofGrammar g
  if !item.isComplete then none
  else if item.lhs == g.start then some (columns.terminals.find? .endMark, .accept)
  else (g.ruleNumber? item.production).map fun rule =>
    (columns.terminals.find? item.lookahead, .reduce rule)

/-- What is entered for a transition. -/
def entryOfEdge (g : Grammar) (edge : Symbol × Nat) : Entry :=
  ((Columns.ofGrammar g).find? edge.1,
    if edge.1.isTerminal then .shift edge.2 else .goto edge.2)

private theorem enterItem_eq_ok {g : Grammar} {item : Item} {row row' : List Action}
    (h : enterItem g (Columns.ofGrammar g) row item = .ok row') :
    row' = (entryOfItem? g item).elim row fun entry => enter entry.1 entry.2 row := by
  unfold enterItem at h
  unfold entryOfItem?
  by_cases complete : item.isComplete
  · by_cases start : item.lhs == g.start
    · simp only [complete, start, Bool.not_true, Bool.false_eq_true, if_false, if_true] at h ⊢
      exact (Except.ok.inj h).symm
    · simp only [complete, start, Bool.not_true, Bool.false_eq_true, if_false] at h ⊢
      cases found : g.ruleNumber? item.production with
      | none => simp [found] at h
      | some rule =>
        simp only [found] at h
        exact (Except.ok.inj h).symm
  · simp only [complete, Bool.not_false, if_true] at h ⊢
    exact (Except.ok.inj h).symm

private theorem foldlM_enterItem {g : Grammar} {items : List Item} {row row' : List Action}
    (h : items.foldlM (enterItem g (Columns.ofGrammar g)) row = .ok row') :
    row' = (items.filterMap (entryOfItem? g)).foldl
      (fun row entry => enter entry.1 entry.2 row) row := by
  induction items generalizing row with
  | nil => exact (Except.ok.inj h).symm
  | cons item items ih =>
    rw [List.foldlM_cons] at h
    cases first : enterItem g (Columns.ofGrammar g) row item with
    | error e =>
      rw [first] at h
      cases h
    | ok next =>
      rw [first] at h
      rw [ih h, enterItem_eq_ok first]
      cases entry : entryOfItem? g item <;> simp [entry]

/-- The entries of a state: those of its items, then those of its transitions. -/
private theorem rowOf_eq_foldl {g : Grammar} {state : ItemSet} {edges : SymbolMap Nat}
    {row : List Action} (h : rowOf g (Columns.ofGrammar g) state edges = .ok row) :
    row = (edges.toList.map (entryOfEdge g)).foldl (fun row entry => enter entry.1 entry.2 row)
      ((state.toList.filterMap (entryOfItem? g)).foldl
        (fun row entry => enter entry.1 entry.2 row)
        (List.replicate (Columns.rowLength g) .error)) := by
  unfold rowOf at h
  dsimp only at h
  cases items : state.toList.foldlM (enterItem g (Columns.ofGrammar g))
      (List.replicate (Columns.rowLength g) .error) with
  | error e =>
    rw [items] at h
    cases h
  | ok filled =>
    rw [items] at h
    obtain rfl := Except.ok.inj h
    rw [← foldlM_enterItem items, List.foldl_map]
    rfl

theorem length_of_rowOf {g : Grammar} {state : ItemSet} {edges : SymbolMap Nat}
    {row : List Action} (h : rowOf g (Columns.ofGrammar g) state edges = .ok row) :
    row.length = Columns.rowLength g := by
  rw [rowOf_eq_foldl h, length_foldl_enter, length_foldl_enter, List.length_replicate]

/-- A cell holds the last entry of the transitions in its column, or else that of the items. -/
theorem getD_of_rowOf {g : Grammar} {state : ItemSet} {edges : SymbolMap Nat}
    {row : List Action} (h : rowOf g (Columns.ofGrammar g) state edges = .ok row) {column : Nat}
    (bound : column < Columns.rowLength g) :
    row.getD column .error = ((lastEntry (edges.toList.map (entryOfEdge g)) column).or
      (lastEntry (state.toList.filterMap (entryOfItem? g)) column)).getD .error := by
  have blank : (List.replicate (Columns.rowLength g) Action.error).getD column .error = .error := by
    simp [List.getD_eq_getElem?_getD, bound]
  rw [rowOf_eq_foldl h, getD_foldl_enter _ (by simpa [length_foldl_enter] using bound),
    getD_foldl_enter _ (by simpa using bound), blank]
  cases lastEntry (edges.toList.map (entryOfEdge g)) column <;> rfl

private theorem exists_foldlM_enterItem {g : Grammar} {items : List Item}
    (numbered : ∀ item ∈ items, ∃ rule, g.ruleNumber? item.production = some rule)
    (row : List Action) :
    ∃ row', items.foldlM (enterItem g (Columns.ofGrammar g)) row = .ok row' := by
  induction items generalizing row with
  | nil => exact ⟨row, rfl⟩
  | cons item items ih =>
    obtain ⟨⟨rule, found⟩, tail⟩ := List.forall_mem_cons.mp numbered
    obtain ⟨next, first⟩ : ∃ next, enterItem g (Columns.ofGrammar g) row item = .ok next := by
      unfold enterItem
      split
      · exact ⟨_, rfl⟩
      · split
        · exact ⟨_, rfl⟩
        · exact ⟨_, by rw [found]⟩
    obtain ⟨row', rest⟩ := ih tail next
    exact ⟨row', by rw [List.foldlM_cons, first]; exact rest⟩

/-- There is a table if every item has a production with a rule number. -/
theorem exists_ofAutomaton {g : Grammar} {a : Automaton} (numbered : ∀ state ∈ a.states,
    ∀ item ∈ state, ∃ rule, g.ruleNumber? item.production = some rule) :
    ∃ t, ofAutomaton g a = .ok t := by
  have rows : ∀ entry ∈ a.states.zip a.transitions,
      ∃ row, rowOf g (Columns.ofGrammar g) entry.1 entry.2 = .ok row := by
    rintro ⟨state, edges⟩ mem
    obtain ⟨row, filled⟩ := exists_foldlM_enterItem (numbered state (List.of_mem_zip mem).1)
      (List.replicate (Columns.rowLength g) .error)
    exact ⟨_, by unfold rowOf; dsimp only; rw [filled]; rfl⟩
  obtain ⟨results, made⟩ := exists_mapM_eq_ok rows
  exact ⟨_, by unfold ofAutomaton; simp only [made]; rfl⟩

section Built

variable {g : Grammar} {a : Automaton} {t : ActionTable}
  (built : ofAutomaton g a = .ok t)
include built

theorem ofAutomaton_spec : t.columns = Columns.ofGrammar g ∧
    (a.states.zip a.transitions).mapM
      (fun entry => rowOf g (Columns.ofGrammar g) entry.1 entry.2) = .ok t.rows := by
  unfold ofAutomaton at built
  cases rows : (a.states.zip a.transitions).mapM
      (fun entry => rowOf g (Columns.ofGrammar g) entry.1 entry.2) with
  | error e =>
    simp only [rows] at built
    cases built
  | ok rows' =>
    simp only [rows] at built
    obtain rfl := Except.ok.inj built
    exact ⟨rfl, rfl⟩

/-- There is a row for every state that has been processed. -/
theorem length_rows (complete : a.transitions.length = a.states.length) :
    t.rows.length = a.states.length := by
  rw [(mapM_eq_ok (ofAutomaton_spec built).2).1, List.length_zip, complete, Nat.min_self]

/-- A cell holds the last entry of the transitions in its column or else the last one of the
items. -/
theorem action_eq {id : Nat} {state : ItemSet} {edges : SymbolMap Nat}
    (stateAt : a.states[id]? = some state) (edgesAt : a.transitions[id]? = some edges)
    {s : Symbol} {column : Nat} (place : (Columns.ofGrammar g).find? s = some column) :
    t.action id s = ((lastEntry (edges.toList.map (entryOfEdge g)) column).or
      (lastEntry (state.toList.filterMap (entryOfItem? g)) column)).getD .error := by
  obtain ⟨columns, rows⟩ := ofAutomaton_spec built
  have zipped : (a.states.zip a.transitions)[id]? = some (state, edges) :=
    List.getElem?_zip_eq_some.mpr ⟨stateAt, edgesAt⟩
  obtain ⟨row, made, found⟩ := (mapM_eq_ok rows).2 id _ zipped
  unfold action row?
  rw [found, columns, place]
  exact getD_of_rowOf made (Columns.lt_rowLength place)

/-- An action other than an error is in a row of a state and the column of a symbol. -/
theorem exists_of_action_ne_error {id : Nat} {s : Symbol} (h : t.action id s ≠ .error) :
    ∃ state edges column, a.states[id]? = some state ∧ a.transitions[id]? = some edges ∧
      (Columns.ofGrammar g).find? s = some column := by
  obtain ⟨columns, rows⟩ := ofAutomaton_spec built
  unfold action row? at h
  rw [columns] at h
  cases found : t.rows[id]? with
  | none => simp [found] at h
  | some row =>
    cases place : (Columns.ofGrammar g).find? s with
    | none => simp [found, place] at h
    | some column =>
      have bound := (List.getElem?_eq_some_iff.mp found).1
      rw [(mapM_eq_ok rows).1] at bound
      obtain ⟨stateAt, edgesAt⟩ :=
        List.getElem?_zip_eq_some.mp (List.getElem?_eq_getElem bound)
      exact ⟨_, _, column, stateAt, edgesAt, rfl⟩

end Built

end ActionTable

end CanonicalLR
