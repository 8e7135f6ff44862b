import CanonicalLR.Proofs.Machine.Loop
import CanonicalLR.Proofs.Machine.Paths
import CanonicalLR.Proofs.Parser.Construction

/-!
The stacks of a run of a parser, row by row: the states are those of a path through the automaton that
the symbols spell, whatever the input and however often the run has recovered from an error. Where the
action is a reduction, the symbols end with the right-hand side of the rule.
-/

set_option autoImplicit false
set_option relaxedAutoImplicit false

namespace CanonicalLR

variable {g : Grammar} {a : Automaton} {m : Machine} {goal : Symbol} {p : Parser}

theorem Configuration.states_cons (frame : Frame) (below : List Frame) (input : List Symbol) :
    (⟨frame :: below, input⟩ : Configuration).states =
      (⟨below, input⟩ : Configuration).states ++ [frame.state] := by
  simp [Configuration.states]

theorem Configuration.symbols_cons (frame : Frame) (below : List Frame) (input : List Symbol) :
    (⟨frame :: below, input⟩ : Configuration).symbols =
      (⟨below, input⟩ : Configuration).symbols ++ [frame.symbol] := by
  simp [Configuration.symbols]

/-- The states of a path lead along transitions on its symbols. -/
theorem Automaton.Path.transition {stack : List Frame} (path : Path g a stack)
    (input : List Symbol) {k state : Nat} {symbol : Symbol} {target : Nat}
    (before : (⟨stack, input⟩ : Configuration).states[k]? = some state)
    (on : (⟨stack, input⟩ : Configuration).symbols[k]? = some symbol)
    (behind : (⟨stack, input⟩ : Configuration).states[k + 1]? = some target) :
    a.transition? state symbol = some target := by
  induction path with
  | nil => simp [Configuration.symbols] at on
  | @cons frame below _ _ step ih =>
    rw [Configuration.states_cons] at before behind
    rw [Configuration.symbols_cons] at on
    have length := Configuration.length_states ⟨below, input⟩
    have last := Configuration.getLast?_states ⟨below, input⟩
    have bound := (List.getElem?_eq_some_iff.mp on).1
    rw [List.length_append, List.length_singleton] at bound
    rcases Nat.lt_or_ge k (⟨below, input⟩ : Configuration).symbols.length with less | top
    · rw [List.getElem?_append_left (by omega)] at before on behind
      exact ih before on behind
    · -- the transition into the topmost frame
      obtain rfl : k = (⟨below, input⟩ : Configuration).symbols.length := by omega
      rw [List.getElem?_append_left (by omega)] at before
      rw [List.getLast?_eq_getElem?, length, Nat.add_sub_cancel, before] at last
      rw [List.getElem?_concat_length] at on
      rw [← length, List.getElem?_concat_length] at behind
      obtain rfl := Option.some.inj last
      obtain rfl := Option.some.inj on
      obtain rfl := Option.some.inj behind
      exact step

/-- The row of a path spells it. -/
theorem Automaton.Path.spells {c : Configuration} (path : Path g a c.stack) :
    (m.rowOf c).onStacks.Spells a where
  bottom := rfl
  length := c.length_states
  transition _ _ _ _ := path.transition c.input

/-- Where a path is reduced, its symbols end with the right-hand side of the rule. -/
theorem Machine.Canonical.suffix_of_reduce (canonical : m.Canonical goal a) {c : Configuration}
    (path : Automaton.Path m.grammar a c.stack) {rule : Nat} (reduces : m.action c = .reduce rule) :
    ∃ production, m.grammar.rule? rule = some production ∧ production.rhs <:+ c.symbols := by
  obtain ⟨⟨lhs, before, after, b⟩, here, complete, _, _, named⟩ :=
    canonical.item_of_reduce reduces
  obtain rfl : after = [] := complete
  obtain ⟨popped, below, stack, symbols, _⟩ := path.uncover canonical.toCanonical here
  refine ⟨_, named, below.reverse.map (·.symbol), ?_⟩
  have reversed := congrArg List.reverse symbols
  rw [List.reverse_reverse, ← List.map_reverse] at reversed
  simp [Configuration.symbols, stack, Item.production, Item.rhs, reversed]

namespace Parser

/-- The rows of a run of a parser, also of one that has not ended: their states lead from state 0 along
transitions on their symbols; what is left of the input is an end of the completed input, and from row to
row an end of what was left before; and the symbols of a row that reduces end with the right-hand side
of its rule. The trace of a run that ends has these rows. -/
theorem spells_of_turns (lhs : g.LeftHandSidesNonTerminal) (kinds : g.OneKindPerName)
    (built : ofGrammar g = .ok p) (input : List Symbol) :
    (∀ l, p.machine.Turns input l →
      (∀ row ∈ l.written p.machine, row.Spells p.automaton ∧ row.input <:+ Machine.complete input ∧
        ∀ rule, row.action = .reduce rule → ∃ production,
          p.grammar.rule? rule = some production ∧ production.rhs <:+ row.symbols) ∧
      (l.written p.machine).Pairwise fun earlier later => later.input <:+ earlier.input) ∧
    ∀ limit trace, p.machine.run limit input = some (.ok trace) →
      ∃ l, p.machine.Turns input l ∧ l.written p.machine = trace.rows.map (·.onStacks) := by
  have canonical := (canonical_of_ofGrammar lhs kinds built).machine
  refine ⟨fun l turns => ?_, fun limit trace ended => ?_⟩
  · obtain ⟨rows, c, steps, written⟩ := turns.exists_steps
    rw [written]
    refine ⟨fun row mem => ?_, List.pairwise_map.mpr steps.pairwise_input⟩
    obtain ⟨known, there, rfl⟩ := List.mem_map.mp mem
    obtain ⟨n, d, reaches, rfl⟩ := steps.exists_reaches known there
    have path := canonical.path_of_reaches reaches
    exact ⟨path.spells, steps.input_suffix _ there,
      fun rule reduces => canonical.suffix_of_reduce path reduces⟩
  · obtain ⟨l, turns, shows⟩ := Machine.exists_turns_of_run ended
    exact ⟨l, turns, shows.written⟩

/-- The run on `n n` with the parser of `E -> E + n | n`: after an error the symbols on the stack are the
right-hand side of `E -> n`. -/
theorem spells_of_turns_sums :
    let sums := (Grammar.ofStart (.nonTerminal "E")).pushAll (.nonTerminal "E")
      [[.nonTerminal "E", .terminal "+", .terminal "n"], [.terminal "n"]]
    let n := Symbol.terminal "n"
    ∃ p l row, ofGrammar sums = .ok p ∧ p.machine.Turns [n, n] l ∧
      (∃ earlier ∈ l.written p.machine, earlier.action = .error) ∧
      row ∈ l.written p.machine ∧ row.action = .reduce 1 ∧ row.symbols = [n] ∧
      row.Spells p.automaton ∧ row.input <:+ [n, n, .endMark] ∧
      ∃ production, p.grammar.rule? 1 = some production ∧ production.rhs <:+ row.symbols := by
  intro sums n
  have computed : ((ofGrammar sums).toOption.any fun p : Parser =>
      (p.machine.run 6 [n, n]).any fun result => result.toOption.any fun trace =>
        decide (trace.rows.map (·.onStacks) =
          [⟨[0], [], [n, n, .endMark], .shift 2⟩, ⟨[0, 2], [n], [n, .endMark], .error⟩,
            ⟨[0], [], [n, .endMark], .shift 2⟩, ⟨[0, 2], [n], [.endMark], .reduce 1⟩,
            ⟨[0, 1], [.nonTerminal "E"], [.endMark], .accept⟩])) = true := by decide +kernel
  obtain ⟨p, built⟩ := exists_ofGrammar (g := sums) rfl
  obtain ⟨trace, ended, shown⟩ := Machine.exists_trace_of_any (of_any_ofGrammar built computed)
  obtain ⟨rows, traces⟩ := spells_of_turns (by decide) (by decide) built [n, n]
  obtain ⟨l, turns, written⟩ := traces _ trace ended
  rw [of_decide_eq_true shown] at written
  have mem : (⟨[0, 2], [n], [.endMark], .reduce 1⟩ : StackRow) ∈ l.written p.machine := by
    simp [written]
  obtain ⟨spells, rest, handle⟩ := (rows l turns).1 _ mem
  exact ⟨p, l, _, built, turns, ⟨_, by rw [written]; exact .tail _ (.head _), rfl⟩, mem, rfl, rfl,
    spells, rest, handle 1 rfl⟩

end Parser

end CanonicalLR
