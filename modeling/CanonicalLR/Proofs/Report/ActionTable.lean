import CanonicalLR.Proofs.ActionTable.Headers
import CanonicalLR.Proofs.Grammar.Kinds
import CanonicalLR.Proofs.Parser.Construction
import CanonicalLR.Report.Sections

/-!
The drawing of an action table. A row of the table has an action for every slot: that of the symbol
whose slot it is, and none in a slot of no symbol. So the drawing has the actions under their symbols
if the grammar has no terminal of the end mark's name, and otherwise one column too many.
-/

set_option autoImplicit false
set_option relaxedAutoImplicit false

namespace CanonicalLR

namespace ActionTable

variable {g : Grammar} {a : Automaton} {t : ActionTable}

/-- No entry is made in a column that no symbol has. -/
private theorem lastEntry_of_unused {column : Nat}
    (unused : ∀ s, (Columns.ofGrammar g).find? s ≠ some column) :
    (∀ edges : List (Symbol × Nat), lastEntry (edges.map (entryOfEdge g)) column = none) ∧
      ∀ items : List Item, lastEntry (items.filterMap (entryOfItem? g)) column = none := by
  have terminals : ∀ s, (Columns.ofGrammar g).terminals.find? s ≠ some column := fun s found => by
    refine unused (.terminal s.name) ?_
    rw [Columns.find?_terminal rfl, ← found]
    exact SymbolMap.find?_congr _ rfl
  constructor
  · refine fun edges => lastEntry_eq_none fun action mem => ?_
    obtain ⟨edge, _, entry⟩ := List.mem_map.mp mem
    exact unused edge.1 (Prod.mk.inj entry).1
  · refine fun items => lastEntry_eq_none fun action mem => ?_
    obtain ⟨item, _, entry⟩ := List.mem_filterMap.mp mem
    simp only [entryOfItem?] at entry
    split at entry
    · cases entry
    · split at entry
      · exact terminals _ (Prod.mk.inj (Option.some.inj entry)).1
      · obtain ⟨rule, _, entry⟩ := Option.map_eq_some_iff.mp entry
        exact terminals _ (Prod.mk.inj entry).1

/-- A row has a cell for every slot, with the action on its symbol in it. -/
theorem drop_of_row (lhs : g.LeftHandSidesNonTerminal) (built : ofAutomaton g a = .ok t) {id : Nat}
    {row : List Action} (here : t.rows[id]? = some row) :
    row.length = (Columns.slots g).length + 1 ∧
      row.drop 1 = (Columns.slots g).map fun slot => slot.elim .error (t.action id) := by
  obtain ⟨columns, rows⟩ := ofAutomaton_spec built
  have bound := (List.getElem?_eq_some_iff.mp here).1
  rw [(mapM_eq_ok rows).1] at bound
  obtain ⟨row', made, found⟩ := (mapM_eq_ok rows).2 id _ (List.getElem?_eq_getElem bound)
  obtain rfl := Option.some.inj (here.symm.trans found)
  have length : row.length = (Columns.slots g).length + 1 := by
    rw [length_of_rowOf made, Columns.length_slots]
  refine ⟨length, List.ext_getElem (by simp [length]) fun j inside inside' => ?_⟩
  rw [List.length_map] at inside'
  rw [List.getElem_drop, List.getElem_map]
  have cell : row[1 + j] = row.getD (j + 1) .error := by
    simp only [Nat.add_comm 1 j, List.getD_eq_getElem?_getD]
    rw [List.getElem?_eq_getElem (by omega), Option.getD_some]
  have whose := List.getElem?_eq_getElem inside'
  rw [cell]
  cases slot : (Columns.slots g)[j] with
  | none =>
    have unused : ∀ s, (Columns.ofGrammar g).find? s ≠ some (j + 1) := fun s found => by
      have placed := ((Columns.find?_eq_some_iff lhs).mp found).2
      rw [Nat.add_sub_cancel, whose, slot] at placed
      cases placed
    have nothing := lastEntry_of_unused unused
    rw [getD_of_rowOf made (by rw [← Columns.length_slots]; omega), nothing.1, nothing.2]
    rfl
  | some s =>
    have place : (Columns.ofGrammar g).find? s = some (j + 1) := by
      rw [Columns.find?_eq_some_iff lhs, Nat.add_sub_cancel, whose, slot]
      exact ⟨Nat.le_add_left 1 j, rfl⟩
    simp only [Option.elim_some, action, row?, here, columns, place]

end ActionTable

namespace Report

/-- Under the header of every symbol the cells that `actionTable` draws have, in the row of every state,
the action on the symbol, and there is no cell without a header. For every row of the table has as many
entries as there are columns, the columns in use are the first ones from column 1 on, each in use by one
symbol, and the headers are in their order. -/
structure IsTruthful (t : ActionTable) : Prop where
  cells : actionCells t = ("" :: t.columns.headers.map Symbol.render) ::
    (List.range t.rows.length).map fun id =>
      stateName id :: t.columns.headers.map fun s => (t.action id s).render
  width : ∀ row ∈ t.rows, row.length = t.columns.count
  dense : ((t.columns.terminals.toList ++ t.columns.nonTerminals.toList).map (·.2)).Perm
    (List.range' 1 (t.columns.count - 1))
  order : ∀ (j : Nat) (s : Symbol),
    t.columns.headers[j]? = some s ↔ t.columns.find? s = some (j + 1)

/-- The drawing of a table with slots of which some may be of no symbol: there are headers for the
others only, but every slot has a cell. -/
structure DrawsSlots (t : ActionTable) (slots : List (Option Symbol)) : Prop where
  cells : actionCells t = ("" :: t.columns.headers.map Symbol.render) ::
    (List.range t.rows.length).map fun id =>
      stateName id :: slots.map fun slot => slot.elim "" fun s => (t.action id s).render
  width : ∀ row ∈ t.rows, row.length = slots.length + 1
  headers : t.columns.headers = slots.reduceOption
  order : ∀ (j : Nat) (s : Symbol),
    slots[j]? = some (some s) ↔ t.columns.find? s = some (j + 1)

variable {g : Grammar} {a : Automaton} {t : ActionTable}

/-- The cells of a row, drawn. -/
private theorem map_render_of_row (lhs : g.LeftHandSidesNonTerminal)
    (built : ActionTable.ofAutomaton g a = .ok t) {id : Nat} {row : List Action}
    (here : t.rows[id]? = some row) : (row.drop 1).map Action.render =
      (Columns.slots g).map fun slot => slot.elim "" fun s => (t.action id s).render := by
  rw [(ActionTable.drop_of_row lhs built here).2, List.map_map]
  refine List.map_congr_left fun slot _ => ?_
  cases slot <;> rfl

theorem drawsSlots (lhs : g.LeftHandSidesNonTerminal)
    (built : ActionTable.ofAutomaton g a = .ok t) : DrawsSlots t (Columns.slots g) where
  cells := by
    refine congrArg (("" :: t.columns.headers.map Symbol.render) :: ·) ?_
    refine List.ext_getElem (by simp) fun id inside _ => ?_
    rw [List.length_map, List.length_zipIdx] at inside
    simp only [List.getElem_map, List.getElem_zipIdx, List.getElem_range, Nat.zero_add]
    rw [map_render_of_row lhs built (List.getElem?_eq_getElem inside)]
  width row mem := by
    obtain ⟨id, here⟩ := List.mem_iff_getElem?.mp mem
    exact (ActionTable.drop_of_row lhs built here).1
  headers := by rw [(ActionTable.ofAutomaton_spec built).1, Columns.headers_ofGrammar lhs]
  order j s := by
    rw [(ActionTable.ofAutomaton_spec built).1, Columns.find?_eq_some_iff lhs]
    simp

/-- Without a slot of no symbol the drawing is truthful. -/
theorem isTruthful_of_full (lhs : g.LeftHandSidesNonTerminal)
    (built : ActionTable.ofAutomaton g a = .ok t) (full : none ∉ Columns.slots g) :
    IsTruthful t := by
  have draws := drawsSlots lhs built
  have columns := (ActionTable.ofAutomaton_spec built).1
  have slots : Columns.slots g = t.columns.headers.map some := by
    rw [draws.headers]
    exact Columns.eq_map_some full
  have lengths := congrArg List.length slots
  rw [List.length_map, draws.headers] at lengths
  have count : t.columns.count = (Columns.slots g).length + 1 := by
    rw [columns, Columns.count_ofGrammar lhs, lengths]
  refine ⟨?_, fun row mem => ?_, ?_, fun j s => ?_⟩
  · rw [draws.cells, slots]
    simp only [List.map_map, Function.comp_def, Option.elim_some]
  · rw [draws.width row mem, count]
  · have perm := (Columns.entries_perm lhs).map (·.2)
    rw [Columns.map_snd_numbered full] at perm
    rwa [count, columns, Nat.add_sub_cancel]
  · rw [← draws.order, slots, List.getElem?_map]
    simp

/-- The drawing is truthful exactly if the end mark is not among the terminals. -/
theorem isTruthful_iff (lhs : g.LeftHandSidesNonTerminal)
    (built : ActionTable.ofAutomaton g a = .ok t) (drawn : t.rows ≠ []) :
    IsTruthful t ↔ .endMark ∉ g.terminals := by
  rw [← Columns.none_mem_slots]
  refine ⟨fun truthful gap => ?_, isTruthful_of_full lhs built⟩
  have draws := drawsSlots lhs built
  obtain ⟨row, mem⟩ := List.exists_mem_of_ne_nil _ drawn
  have width := (draws.width row mem).symm.trans (truthful.width row mem)
  rw [(ActionTable.ofAutomaton_spec built).1, Columns.count_ofGrammar lhs] at width
  have shorter := List.reduceOption_length_lt_iff.mpr gap
  omega

/-- The table of a parser is that of its grammar and its automaton, with a row for every state. -/
private theorem table_of_ofGrammar {p : Parser} (lhs : g.LeftHandSidesNonTerminal)
    (built : Parser.ofGrammar g = .ok p) :
    p.table.rows.length = p.automaton.states.length ∧ p.table.rows ≠ [] ∧
      p.grammar.LeftHandSidesNonTerminal ∧
      ActionTable.ofAutomaton p.grammar p.automaton = .ok p.table := by
  obtain ⟨prepared, automaton, table⟩ := Parser.parts_of_ofGrammar built
  have augmented := Automaton.isAugmented_of_ofGrammar automaton
  obtain ⟨_, a, _, automaton', _, collection, _⟩ := Automaton.exists_ofGrammar augmented
  obtain rfl := Except.ok.inj (automaton'.symm.trans automaton)
  have rows := ActionTable.length_rows table collection.complete
  have first := (List.getElem?_eq_some_iff.mp collection.first).1
  refine ⟨rows, fun none => ?_, ?_, ?_⟩
  · rw [← rows, none] at first
    cases first
  · rw [prepared]
    exact lhs.prepare (Grammar.named_of_isAugmented_prepare augmented)
  · rw [prepared]
    exact table

/-- The drawn action table of a grammar that has been read, with a row for every state. The columns are
for the terminals, the end mark and the non-terminals, each in ascending order, but the place of the end
mark among the terminals is left blank. So the drawing is truthful exactly if the end mark is not among
the terminals of the grammar. -/
theorem actionTable_of_read {text : String} {g : Grammar} (read : Grammar.read text = .ok g) :
    ∃ p, Parser.ofGrammar g = .ok p ∧ p.table.rows.length = p.automaton.states.length ∧
      DrawsSlots p.table (Columns.slots p.grammar) ∧
      (IsTruthful p.table ↔ .endMark ∉ g.terminals) := by
  have named := Grammar.isEmpty_start_of_read read
  obtain ⟨spelled, start⟩ := Grammar.isSpelled_of_read read
  obtain ⟨p, built⟩ := Parser.exists_ofGrammar named
  obtain ⟨rows, drawn, lhs, table⟩ := table_of_ofGrammar spelled.lhs built
  refine ⟨p, built, rows, drawsSlots lhs table, ?_⟩
  rw [isTruthful_iff lhs table drawn, (Parser.parts_of_ofGrammar built).1,
    Grammar.mem_terminals_prepare named start]

theorem actionTable_of_read_letters : ∃ g p, Grammar.read "S\nS -> a S | b" = .ok g ∧
    Parser.ofGrammar g = .ok p ∧ DrawsSlots p.table (Columns.slots p.grammar) ∧
    IsTruthful p.table := by
  let letters := (Grammar.ofStart (.nonTerminal "S")).pushAll (.nonTerminal "S")
    [[.terminal "a", .nonTerminal "S"], [.terminal "b"]]
  have read : Grammar.read "S\nS -> a S | b" = .ok letters := by decide +kernel
  have other : .endMark ∉ letters.terminals := by decide +kernel
  obtain ⟨p, built, _, draws, truthful⟩ := actionTable_of_read read
  exact ⟨letters, p, read, built, draws, truthful.mpr other⟩

/-- The end mark as a terminal: its action in state 0 is drawn under `S`, and the goto on `S` under
`S'`. -/
theorem not_isTruthful_of_read : ∃ g p, Grammar.read "S\nS -> $" = .ok g ∧
    Parser.ofGrammar g = .ok p ∧
    actionCells p.table = [["", "$", "S", "S'"], ["I0", "", "s1", "2", ""],
      ["I1", "", "r0", "", ""], ["I2", "", "acc", "", ""]] ∧
    p.table.action 0 .endMark = .shift 1 ∧ p.table.action 0 (.nonTerminal "S") = .goto 2 ∧
    p.table.columns.count = 4 ∧ ¬ IsTruthful p.table := by
  let marks := (Grammar.ofStart (.nonTerminal "S")).push (.nonTerminal "S") [.endMark]
  have read : Grammar.read "S\nS -> $" = .ok marks := by decide +kernel
  let slots : List (Option Symbol) :=
    [none, some .endMark, some (.nonTerminal "S"), some (.nonTerminal "S'")]
  have computed : ((Parser.ofGrammar marks).toOption.any fun p : Parser =>
      decide (Columns.slots p.grammar = slots ∧ p.table.columns.count = 4 ∧
        p.table.action 0 .endMark = .shift 1 ∧ p.table.action 0 (.nonTerminal "S") = .goto 2 ∧
        ((List.range p.table.rows.length).map fun id =>
          stateName id :: slots.map fun slot => slot.elim "" fun s => (p.table.action id s).render) =
            [["I0", "", "s1", "2", ""], ["I1", "", "r0", "", ""], ["I2", "", "acc", "", ""]])) =
        true := by decide +kernel
  obtain ⟨p, built⟩ := Parser.exists_ofGrammar (g := marks) rfl
  obtain ⟨known, count, shifts, goes, body⟩ :=
    of_decide_eq_true (Parser.of_any_ofGrammar built computed)
  obtain ⟨_, drawn, lhs, table⟩ := table_of_ofGrammar (g := marks) (by decide +kernel) built
  have draws := drawsSlots lhs table
  rw [known] at draws
  refine ⟨marks, p, read, built, ?_, shifts, goes, count, fun truthful => ?_⟩
  · rw [draws.cells, body, draws.headers]
    decide +kernel
  · refine (isTruthful_iff lhs table drawn).mp truthful (Columns.none_mem_slots.mp ?_)
    rw [known]
    exact List.mem_cons_self ..

end Report

end CanonicalLR
