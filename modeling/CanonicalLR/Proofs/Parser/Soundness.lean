import CanonicalLR.Proofs.Machine.Paths
import CanonicalLR.Proofs.Parser.Predictions

/-!
What a parser accepts is derived by the start symbol, and its reductions read backwards are the
derivation. The invariant is that the symbols on the stack derive the part of the input that has been
taken: a shift or a goto adds the same symbol to both, and undoing a reduction is one step of the
derivation.
-/

set_option autoImplicit false
set_option relaxedAutoImplicit false

namespace CanonicalLR.Parser

namespace Canonical

variable {g : Grammar} {p : Parser} (canonical : p.Canonical g)
include canonical

/-- Acceptance is with the start symbol alone on the stack, at the end mark. -/
theorem symbols_of_accept {c : Configuration}
    (path : Automaton.Path p.machine.grammar p.automaton c.stack)
    (action : p.machine.action c = .accept) : c.symbols = [g.start] ∧ c.current = .endMark := by
  obtain ⟨mark, ⟨lhs, before, after, lookahead⟩, here, complete, start⟩ :=
    canonical.machine.item_of_accept action
  refine ⟨?_, mark⟩
  obtain rfl : after = [] := complete
  have rhs := canonical.machine.rhs_of_start (canonical.machine.belongs here).production start
  simp only [Item.production, Item.rhs, List.append_nil] at rhs
  obtain ⟨popped, below, stack, symbols, initial⟩ :=
    path.uncover canonical.machine.toCanonical here
  rw [stack] at path
  obtain rfl := path.of_append.eq_nil_of_topState canonical.machine.toCanonical
    (canonical.machine.eq_zero_of_start canonical.start_not_mem_occurrences initial rfl start)
  simp [Configuration.symbols, stack, symbols, rhs]

/-- What can be taken to the stack is the first symbol of the input, and no end mark. -/
theorem input_of_occurs (avoids : g.AvoidsEndMark) {c : Configuration}
    (occurs : c.current ∈ p.machine.grammar.occurrences) :
    c.input = c.current :: c.input.tail ∧ c.current.isEndMark = false := by
  have visible := avoids _ (canonical.mem_symbols occurs)
  refine ⟨?_, visible⟩
  obtain ⟨stack, input⟩ := c
  cases input with
  | nil => cases visible
  | cons s input => rfl

/-- Between two configurations a part of the input was taken, and the rows lead back from the symbols
on the later stack to those on the earlier one with the taken part behind them. -/
structure Takes (g : Grammar) (m : Machine) (c d : Configuration) (rows : List TraceRow)
    (taken : List Symbol) : Prop where
  input : c.input = taken ++ d.input
  visible : ∀ s ∈ taken, s.isEndMark = false
  rewrites {behind : Symbol → Prop} (right : ∀ s ∈ taken, behind s) :
    g.RewritesAt behind (m.reductions rows).reverse d.symbols (c.symbols ++ taken)

private theorem takes_of_take (avoids : g.AvoidsEndMark) {c : Configuration} {target : Nat}
    (occurs : c.current ∈ p.machine.grammar.occurrences)
    (none : p.machine.reduction? (p.machine.rowOf c) = none) :
    Takes g p.machine c (c.take target) [p.machine.rowOf c] [c.current] := by
  obtain ⟨first, visible⟩ := canonical.input_of_occurs avoids occurs
  refine ⟨first, by simpa using visible, fun _ => ?_⟩
  have same : (c.take target).symbols = c.symbols ++ [c.current] := by
    simp [Configuration.take, Configuration.symbols]
  rw [same]
  simpa [Machine.reductions, none] using Grammar.RewritesAt.refl _

/-- Undoing a reduction is one step of the derivation, with nothing behind it. -/
private theorem takes_of_reduce {c : Configuration} {rule target : Nat} {item : Item}
    {popped below : List Frame} (action : p.machine.action c = .reduce rule)
    (named : p.machine.grammar.rule? rule = some item.production)
    (here : p.automaton.HasItem c.top item) (complete : item.after = [])
    (other : item.lhs ≠ p.machine.grammar.start) (stack : c.stack = popped ++ below)
    (symbols : popped.map (·.symbol) = item.before.reverse) :
    Takes g p.machine c ⟨⟨item.lhs, target⟩ :: below, c.input⟩ [p.machine.rowOf c] [] := by
  refine ⟨rfl, List.forall_mem_nil _, fun {behind} _ => ?_⟩
  have rhs : item.production.rhs = item.before := by
    simp [Item.production, Item.rhs, complete]
  have length : popped.length = item.before.length := by
    have lengths := congrArg List.length symbols
    simpa using lengths
  have depth : c.stack.length - item.production.rhs.length =
      (below.reverse.map (·.symbol)).length := by
    rw [stack, rhs]
    simp [length]
  have row : p.machine.reduction? (p.machine.rowOf c) =
      some (item.production, (below.reverse.map (·.symbol)).length) := by
    rw [← depth]
    simp only [Machine.reduction?, Machine.rowOf, action, named, Option.map_some]
  have before : c.symbols = below.reverse.map (·.symbol) ++ item.production.rhs := by
    simp [Configuration.symbols, stack, symbols, rhs]
  have mem := canonical.mem_productions (canonical.machine.belongs here).production other
  have step : g.RewritesAt behind [(item.production, (below.reverse.map (·.symbol)).length)]
      (below.reverse.map (·.symbol) ++ item.production.lhs :: [])
      (below.reverse.map (·.symbol) ++ item.production.rhs ++ []) :=
    .head mem (List.forall_mem_nil _) (.refl _)
  rw [before]
  simpa [Machine.reductions, row, Configuration.symbols, Item.production] using step

private theorem takes_of_step (avoids : g.AvoidsEndMark) {c c' : Configuration}
    (path : Automaton.Path p.machine.grammar p.automaton c.stack)
    (next : p.machine.step c = .next c') (clean : p.machine.action c ≠ .error) :
    ∃ taken, Takes g p.machine c c' [p.machine.rowOf c] taken := by
  cases canonical.machine.stepCase path with
  | shift action step mem edge =>
    cases next.symm.trans step
    refine ⟨_, canonical.takes_of_take avoids (Grammar.mem_terminals.mp mem).1 ?_⟩
    simp only [Machine.reduction?, Machine.rowOf, action]
  | goto action step occurs kind edge =>
    cases next.symm.trans step
    refine ⟨_, canonical.takes_of_take avoids occurs ?_⟩
    simp only [Machine.reduction?, Machine.rowOf, action]
  | reduce action step named here complete _ other stack symbols =>
    cases next.symm.trans step
    exact ⟨[], canonical.takes_of_reduce action named here complete other stack symbols⟩
  | accept _ step => cases step.symm.trans next
  | recover action => exact absurd action clean
  | reject action => exact absurd action clean

/-- Over steps without an error, the reductions read backwards rewrite the symbols on the stack into
those before and the taken part of the input. -/
theorem exists_takes_of_steps (avoids : g.AvoidsEndMark) {c d : Configuration}
    {rows : List TraceRow} (steps : p.machine.Steps c rows d)
    (path : Automaton.Path p.machine.grammar p.automaton c.stack)
    (clean : ∀ row ∈ rows, row.action ≠ .error) : ∃ taken, Takes g p.machine c d rows taken := by
  induction steps with
  | refl c =>
    refine ⟨[], rfl, List.forall_mem_nil _, fun _ => ?_⟩
    rw [List.append_nil]
    exact .refl _
  | @head c c' d rows step rest ih =>
    obtain ⟨first, later⟩ := List.forall_mem_cons.mp clean
    obtain ⟨front, here⟩ := canonical.takes_of_step avoids path step first
    obtain ⟨back, there⟩ := ih (canonical.machine.path_of_step path step) later
    refine ⟨front ++ back, by rw [here.input, there.input, List.append_assoc], fun s mem =>
      (List.mem_append.mp mem).elim (here.visible s) (there.visible s), fun {behind} right => ?_⟩
    obtain ⟨inFront, inBack⟩ := List.forall_mem_append.mp right
    have joined := (there.rewrites inBack).trans ((here.rewrites inFront).append inBack)
    rw [← List.reverse_append, List.append_assoc] at joined
    simpa only [Machine.reductions, ← List.filterMap_append, List.singleton_append] using joined

/-- The reductions of a run that accepts without an error, read backwards, rewrite the start symbol
into the content of the input. -/
theorem rewritesAt_of_run (avoids : g.AvoidsEndMark) {limit : Nat} {input : List Symbol}
    {trace : Trace} (parsed : p.parse limit input = some (.ok trace))
    (accepted : trace.isAccepted = true) (clean : trace.hadError = false) {behind : Symbol → Prop}
    (right : ∀ s ∈ Machine.content input, behind s) :
    g.RewritesAt behind (p.machine.reductions trace.rows).reverse [g.start]
      (Machine.content input) := by
  obtain ⟨rows, c, steps, halts, all⟩ := Machine.steps_of_run parsed
  rw [Trace.hadError_eq_false_iff, all] at clean
  have action : p.machine.action c = .accept := by
    rcases Machine.action_of_halt halts with ⟨_, accepts⟩ | ⟨rejected, _⟩
    · exact accepts
    · rw [Trace.isAccepted, rejected] at accepted
      cases accepted
  obtain ⟨symbols, mark⟩ :=
    canonical.symbols_of_accept (canonical.machine.path_of_steps steps .nil) action
  obtain ⟨taken, takes⟩ := canonical.exists_takes_of_steps avoids steps .nil
    fun row mem => clean row (List.mem_append_left _ mem)
  have whole : Machine.content input = taken := by
    rw [← Machine.content_complete]
    exact (congrArg Machine.content takes.input).trans
      (Machine.content_append takes.visible (Machine.content_of_current mark))
  have last : p.machine.reductions trace.rows = p.machine.reductions rows := by
    rw [all, Machine.reductions, List.filterMap_append]
    simp [Machine.reductions, Machine.reduction?, Machine.rowOf, action]
  rw [whole] at right ⊢
  have back := takes.rewrites right
  rwa [symbols, ← last] at back

end Canonical

/-- The parser of a grammar without the end mark is sound. If it accepts an input without an error,
the start symbol derives the content of the input. The productions of the reductions, from the last
to the first and each applied to the symbol that its reduction left on top of the stack, rewrite the
start symbol into the content, by a rightmost derivation if the content is all terminals. -/
theorem rewritesAt_of_isAccepted {g : Grammar} (lhs : g.LeftHandSidesNonTerminal)
    (kinds : g.OneKindPerName) (avoids : g.AvoidsEndMark) (named : g.start.isEmpty = false) :
    ∃ p, ofGrammar g = .ok p ∧ ∀ limit input trace, p.parse limit input = some (.ok trace) →
      trace.isAccepted = true → trace.hadError = false →
        g.Derives [g.start] (Machine.content input) ∧
        g.RewritesAt (fun _ => True) (p.machine.reductions trace.rows).reverse [g.start]
          (Machine.content input) ∧
        ((∀ s ∈ Machine.content input, s.isTerminal = true) →
          g.RewritesAt (fun s => s.isTerminal = true) (p.machine.reductions trace.rows).reverse
            [g.start] (Machine.content input) ∧
          g.RightmostDerives ((p.machine.reductions trace.rows).reverse.map (·.1)) [g.start]
            (Machine.content input)) := by
  obtain ⟨p, built⟩ := exists_ofGrammar named
  have canonical := canonical_of_ofGrammar lhs kinds built
  refine ⟨p, built, fun limit input trace parsed accepted clean => ?_⟩
  have anywhere := canonical.rewritesAt_of_run avoids parsed accepted clean (fun _ _ => trivial)
  refine ⟨anywhere.derives, anywhere, fun terminals => ?_⟩
  have rightmost := canonical.rewritesAt_of_run avoids parsed accepted clean terminals
  exact ⟨rightmost, rightmost.rightmostDerives⟩

/-- The ambiguous grammar `E -> E + E | n`. -/
def sums : Grammar :=
  (Grammar.ofStart (.nonTerminal "E")).pushAll (.nonTerminal "E")
    [[.nonTerminal "E", .terminal "+", .nonTerminal "E"], [.terminal "n"]]

theorem rewritesAt_sums_of_isAccepted : sums.LeftHandSidesNonTerminal ∧ sums.OneKindPerName ∧
    sums.AvoidsEndMark ∧ sums.start.isEmpty = false ∧ ∃ p trace, ofGrammar sums = .ok p ∧
      p.parse 20 [.nonTerminal "E", .terminal "+", .terminal "n", .endMark, .terminal "+"] =
        some (.ok trace) ∧ trace.isAccepted = true ∧ trace.hadError = false ∧
      sums.RewritesAt (fun _ => True) (p.machine.reductions trace.rows).reverse [sums.start]
        [.nonTerminal "E", .terminal "+", .terminal "n"] := by
  have lhs : sums.LeftHandSidesNonTerminal := by decide +kernel
  have kinds : sums.OneKindPerName := by decide +kernel
  have avoids : sums.AvoidsEndMark := by decide +kernel
  have named : sums.start.isEmpty = false := by decide +kernel
  obtain ⟨p, built, sound⟩ := rewritesAt_of_isAccepted lhs kinds avoids named
  have run := of_any_ofGrammar (f := fun p => (p.parse 20 [.nonTerminal "E", .terminal "+",
    .terminal "n", .endMark, .terminal "+"]).any fun result => result.toOption.any fun trace =>
      trace.isAccepted && !trace.hadError) built (by decide +kernel)
  obtain ⟨trace, parsed, same⟩ := Machine.exists_trace_of_any run
  obtain ⟨accepted, clean⟩ := by simpa using same
  exact ⟨lhs, kinds, avoids, named, p, trace, built, parsed, accepted, clean,
    (sound 20 _ trace parsed accepted clean).2.1⟩

end CanonicalLR.Parser
