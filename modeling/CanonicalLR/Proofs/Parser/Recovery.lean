import CanonicalLR.Proofs.Parser.Soundness

/-!
What a parser accepts after errors. Recovery only drops symbols from the stack, so that after any
number of errors the stack still derives a sublist of what has been taken of the input: the symbols
that were kept. At the end the start symbol stands alone on the stack and derives them.
-/

set_option autoImplicit false
set_option relaxedAutoImplicit false

namespace CanonicalLR

/-- A stack with one symbol stands on state 0. -/
theorem Automaton.Path.states_of_symbols {g : Grammar} {a : Automaton} {c : Configuration}
    {s : Symbol} (path : Path g a c.stack) (symbols : c.symbols = [s]) :
    ∃ target, a.transition? 0 s = some target ∧ c.states = [0, target] := by
  obtain ⟨stack, input⟩ := c
  cases path with
  | nil => cases symbols
  | @cons frame below rest _ edge =>
    cases rest with
    | nil =>
      obtain rfl : frame.symbol = s := List.head_eq_of_cons_eq symbols
      exact ⟨frame.state, edge, rfl⟩
    | cons _ _ _ =>
      have lengths := congrArg List.length symbols
      simp [Configuration.symbols] at lengths

namespace Parser

/-- Of what a run has taken of the input, the stack derives a part. -/
structure Keeps (g : Grammar) (input : List Symbol) (c : Configuration) (kept : List Symbol) : Prop
    where
  taken : ∃ taken, Machine.complete input = taken ++ c.input ∧ (∀ s ∈ taken, s.isEndMark = false) ∧
    kept.Sublist taken
  derives : g.Derives c.symbols kept

/-- At the end mark there is a rest of the input, and what has been taken is the content. -/
theorem Keeps.of_current {g : Grammar} {input kept : List Symbol} {c : Configuration}
    (keeps : Keeps g input c kept) (mark : c.current = .endMark) :
    c.input = .endMark :: c.input.tail ∧ kept.Sublist (Machine.content input) := by
  obtain ⟨taken, whole, visible, sublist⟩ := keeps.taken
  constructor
  · have rest := Machine.input_eq_of_complete whole visible
    rwa [mark] at rest
  · rw [← Machine.content_complete, whole,
      Machine.content_append visible (Machine.content_of_current mark)]
    exact sublist

namespace Canonical

variable {g : Grammar} {p : Parser} (canonical : p.Canonical g)
include canonical

/-- A step that is no error takes what it takes of the input to the stack. -/
private theorem exists_keeps_of_clean (avoids : g.AvoidsEndMark) {input kept : List Symbol}
    {c c' : Configuration} (keeps : Keeps g input c kept)
    (path : Automaton.Path p.machine.grammar p.automaton c.stack)
    (next : p.machine.step c = .next c') (clean : p.machine.action c ≠ .error) :
    ∃ kept', Keeps g input c' kept' := by
  obtain ⟨more, takes⟩ := canonical.exists_takes_of_steps avoids (.single next) path
    (List.forall_mem_singleton.mpr clean)
  obtain ⟨taken, whole, visible, sublist⟩ := keeps.taken
  refine ⟨kept ++ more, ⟨taken ++ more, ?_, ?_, sublist.append (.refl more)⟩, ?_⟩
  · rw [whole, takes.input, List.append_assoc]
  · exact fun s mem => (List.mem_append.mp mem).elim (visible s) (takes.visible s)
  · have back : g.RewritesAt (fun _ => True) _ c'.symbols (c.symbols ++ more) :=
      takes.rewrites fun _ _ => trivial
    exact back.derives.trans (keeps.derives.concat .refl)

/-- Recovery keeps the part of the symbols that was derived from below. -/
private theorem exists_keeps_of_error {input kept : List Symbol} {c c' : Configuration}
    (keeps : Keeps g input c kept)
    (path : Automaton.Path p.machine.grammar p.automaton c.stack)
    (next : p.machine.step c = .next c') (error : p.machine.action c = .error) :
    ∃ kept', Keeps g input c' kept' := by
  obtain ⟨dropped, below, stack, rfl, _⟩ :=
    canonical.machine.exists_append_of_error path error next
  have symbols : c.symbols = below.reverse.map (·.symbol) ++ dropped.reverse.map (·.symbol) := by
    simp [Configuration.symbols, stack]
  have whole := keeps.derives
  rw [symbols] at whole
  obtain ⟨v, y, rfl, lower, _⟩ := whole.split
  obtain ⟨taken, input, visible, sublist⟩ := keeps.taken
  exact ⟨v, ⟨taken, input, visible, (List.sublist_append_left v y).trans sublist⟩, lower⟩

/-- However often a run has recovered, its stack derives a part of what has been taken. -/
theorem exists_keeps (avoids : g.AvoidsEndMark) {input : List Symbol} {n : Nat} {c : Configuration}
    (reaches : p.machine.Reaches input n c) : ∃ kept, Keeps g input c kept := by
  induction reaches with
  | start => exact ⟨[], ⟨[], rfl, List.forall_mem_nil _, .refl []⟩, .refl⟩
  | @next n c c' reaches next ih =>
    obtain ⟨kept, keeps⟩ := ih
    have path := canonical.machine.path_of_reaches reaches
    by_cases error : p.machine.action c = .error
    · exact canonical.exists_keeps_of_error keeps path next error
    · exact canonical.exists_keeps_of_clean avoids keeps path next error

end Canonical

/-- Recovery only discards. When a parser of a grammar without the end mark accepts, after whatever
errors, the start symbol stands alone on the stack, in the state that it leads to from state 0, and
the end mark is next; and the start symbol derives a sublist of the content of the input, the whole of
it if there was no error. -/
theorem derives_sublist_of_isAccepted {g : Grammar} {p : Parser}
    (lhs : g.LeftHandSidesNonTerminal) (kinds : g.OneKindPerName) (avoids : g.AvoidsEndMark)
    (built : ofGrammar g = .ok p) {limit : Nat} {input : List Symbol} {trace : Trace}
    (parsed : p.parse limit input = some (.ok trace)) (accepted : trace.isAccepted = true) :
    ∃ row target rest kept, trace.rows.getLast? = some row ∧
      p.automaton.transition? 0 g.start = some target ∧
      row.configuration.states = [0, target] ∧ row.configuration.symbols = [g.start] ∧
      row.configuration.input = .endMark :: rest ∧
      kept.Sublist (Machine.content input) ∧ g.Derives [g.start] kept ∧
      (trace.hadError = false → kept = Machine.content input) := by
  have canonical := canonical_of_ofGrammar lhs kinds built
  obtain ⟨rows, c, steps, halts, all⟩ := Machine.steps_of_run parsed
  have path := canonical.machine.path_of_steps steps .nil
  obtain ⟨kept, keeps⟩ := canonical.exists_keeps avoids (steps.reaches .start)
  have action : p.machine.action c = .accept := by
    rcases Machine.action_of_halt halts with ⟨_, accepts⟩ | ⟨rejected, _⟩
    · exact accepts
    · rw [Trace.isAccepted, rejected] at accepted
      cases accepted
  obtain ⟨symbols, mark⟩ := canonical.symbols_of_accept path action
  obtain ⟨target, edge, states⟩ := path.states_of_symbols symbols
  obtain ⟨next, sublist⟩ := keeps.of_current mark
  have derives := keeps.derives
  rw [symbols] at derives
  have last : trace.rows.getLast? = some (p.machine.rowOf c) := by simp [all]
  by_cases clean : trace.hadError = false
  · have whole : g.RewritesAt (fun _ => True) _ [g.start] (Machine.content input) :=
      canonical.rewritesAt_of_run avoids parsed accepted clean fun _ _ => trivial
    exact ⟨_, target, _, _, last, edge, states, symbols, next, .refl _, whole.derives,
      fun _ => rfl⟩
  · exact ⟨_, target, _, kept, last, edge, states, symbols, next, sublist, derives,
      fun same => absurd same clean⟩

/-- The second of two operands in a row drops the first one. -/
theorem derives_sublist_sums_of_isAccepted : sums.LeftHandSidesNonTerminal ∧
    sums.OneKindPerName ∧ sums.AvoidsEndMark ∧ ∃ p trace, ofGrammar sums = .ok p ∧
      p.parse 20 [.terminal "n", .terminal "n", .terminal "+", .terminal "n", .endMark] =
        some (.ok trace) ∧ trace.isAccepted = true ∧ trace.hadError = true ∧
      ∃ kept, kept.Sublist [.terminal "n", .terminal "n", .terminal "+", .terminal "n"] ∧
        sums.Derives [sums.start] kept := by
  have lhs : sums.LeftHandSidesNonTerminal := by decide +kernel
  have kinds : sums.OneKindPerName := by decide +kernel
  have avoids : sums.AvoidsEndMark := by decide +kernel
  obtain ⟨p, built⟩ := exists_ofGrammar (g := sums) (by decide +kernel)
  have run := of_any_ofGrammar (f := fun p => (p.parse 20 [.terminal "n", .terminal "n",
    .terminal "+", .terminal "n", .endMark]).any fun result => result.toOption.any fun trace =>
      trace.isAccepted && trace.hadError) built (by decide +kernel)
  obtain ⟨trace, parsed, same⟩ := Machine.exists_trace_of_any run
  obtain ⟨accepted, met⟩ := Bool.and_eq_true_iff.mp same
  obtain ⟨_, _, _, kept, _, _, _, _, _, sublist, derives, _⟩ :=
    derives_sublist_of_isAccepted lhs kinds avoids built parsed accepted
  exact ⟨lhs, kinds, avoids, p, trace, built, parsed, accepted, met, kept, sublist, derives⟩

end Parser

end CanonicalLR
