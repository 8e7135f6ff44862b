import CanonicalLR.Proofs.Grammar.Openings
import CanonicalLR.Proofs.Parser.Detection

/-!
Where the table acts on the current symbol, reductions lead to a configuration that takes the symbol or
accepts. This holds in automata without conflicts when all non-terminals derive terminal strings, so
that strings offer what they can begin with: the lookahead of a complete item is then shifted behind the
item's left-hand side, or it is the lookahead of the item that has predicted this one, which is complete
in turn. `Finishes` says so of an item, and holds of the items on top of a path. So after an error from
which the machine recovers, the current symbol meets no other one.
-/

set_option autoImplicit false
set_option relaxedAutoImplicit false

namespace CanonicalLR

namespace Machine

/-- A machine takes the current symbol to the stack or accepts. -/
def Consumes (m : Machine) (c : Configuration) : Prop :=
  (∃ target, m.action c = .shift target) ∨ (∃ target, m.action c = .goto target) ∨
    m.action c = .accept

/-- Without an error, and without taking anything of the input before, a machine comes to a
configuration that takes the current symbol or accepts. -/
def Resolves (m : Machine) (c : Configuration) : Prop :=
  ∃ productions d, m.Replays c productions d ∧ d.input = c.input ∧ m.Consumes d

variable {m : Machine}

theorem Consumes.action_ne_error {c : Configuration} (consumes : m.Consumes c) :
    m.action c ≠ .error := by
  rcases consumes with ⟨target, action⟩ | ⟨target, action⟩ | action <;> simp [action]

theorem Consumes.resolves {c : Configuration} (consumes : m.Consumes c) : m.Resolves c :=
  ⟨[], c, .refl c, rfl, consumes⟩

theorem Resolves.of_replays {c d : Configuration} {productions : List Production}
    (resolves : m.Resolves d) (replays : m.Replays c productions d) (input : d.input = c.input) :
    m.Resolves c := by
  obtain ⟨later, e, rest, same, consumes⟩ := resolves
  exact ⟨productions ++ later, e, replays.trans rest, same.trans input, consumes⟩

end Machine

namespace Parser

/-- Wherever what stands after the dot of an item on a stack has been taken to it, the current symbol
is resolved if it is the item's lookahead. -/
def Finishes (p : Parser) (stack : List Frame) (item : Item) : Prop :=
  ∀ taken input, taken.length = item.after.length → item.lookahead = Item.lookaheadOf input →
    p.automaton.HasItem (topState (taken ++ stack)) ⟨item.lhs, item.rhs, [], item.lookahead⟩ →
      p.machine.Resolves ⟨taken ++ stack, input⟩

namespace Canonical

variable {g : Grammar} {p : Parser} (canonical : p.Canonical g) (avoids : g.AvoidsEndMark)
include canonical avoids

/-- FIRST of an opening string is not empty. -/
theorem exists_mem_ofString_of_opens {string : List Symbol} {b : Symbol}
    (inside : ∀ s ∈ string, s ∈ p.machine.grammar.symbols)
    (opens : p.machine.grammar.Opens string) (known : p.machine.grammar.IsLookahead b) :
    ∃ a, a ∈ p.machine.grammar.firstTable.ofString (string ++ [b]) := by
  rcases opens with vanishes | ⟨a, v, kind, begins⟩
  · exact ⟨b, canonical.mem_ofString_of_derives avoids (vanishes.concat .refl)
      (canonical.mem_ofString_cons known [])⟩
  · have terminal : p.machine.grammar.IsLookahead a := .inl (canonical.machine.mem_terminals
      (begins.subset_symbols inside a (List.mem_cons_self ..)) kind)
    exact ⟨a, canonical.mem_ofString_of_derives avoids (begins.concat .refl)
      (canonical.mem_ofString_cons terminal _)⟩

variable (free : p.automaton.ConflictFree)
include free

/-- What the string after the dot of an item vanishes by can be reduced where the lookahead allows what
follows it. -/
theorem replays_of_vanishes {u : List Symbol} (vanishes : p.machine.grammar.Derives u [])
    {stack : List Frame} {lhs b : Symbol} {before after input : List Symbol}
    (here : p.automaton.HasItem (topState stack) ⟨lhs, before, u ++ after, b⟩)
    (first : Item.lookaheadOf input ∈ p.machine.grammar.firstTable.ofString (after ++ [b]))
    (known : p.machine.grammar.IsLookahead (Item.lookaheadOf input)) :
    ∃ productions taken, taken.length = u.length ∧
      p.machine.Replays ⟨stack, input⟩ productions ⟨taken ++ stack, input⟩ ∧
      p.automaton.HasItem (topState (taken ++ stack)) ⟨lhs, before ++ u, after, b⟩ := by
  obtain ⟨productions, expands⟩ := vanishes.exists_expands (List.forall_mem_nil _)
  obtain ⟨taken, length, replays, there⟩ :=
    canonical.replays_of_expands avoids free expands here first known
  exact ⟨productions, taken, length, replays, there⟩

/-- A terminal that is offered after the dot of an item is shifted in the end. -/
theorem resolves_of_offers {u : List Symbol} {input : List Symbol}
    (offers : p.machine.grammar.Offers (Item.lookaheadOf input) u)
    (known : p.machine.grammar.IsLookahead (Item.lookaheadOf input)) {stack : List Frame}
    {lhs b : Symbol} {before : List Symbol}
    (here : p.automaton.HasItem (topState stack) ⟨lhs, before, u, b⟩) :
    p.machine.Resolves ⟨stack, input⟩ := by
  induction offers generalizing stack lhs before b with
  | here rest =>
    obtain ⟨target, edge, _⟩ := canonical.machine.advance here rfl
    have mem : Item.lookaheadOf input ∈ p.machine.grammar.terminals := Grammar.mem_terminals.mpr
      ⟨Item.next_mem_occurrences (canonical.machine.belongs here).production rfl, known.isTerminal⟩
    have action : p.machine.action ⟨stack, input⟩ = .shift target :=
      canonical.machine.shift_of_transition? edge mem
    exact Machine.Consumes.resolves (.inl ⟨target, action⟩)
  | @inside production rest mem _ opens ih =>
    have inside : ∀ s ∈ rest, s ∈ p.machine.grammar.symbols := fun s hs =>
      Grammar.occurrences_subset_symbols
        (Item.rest_subset_occurrences (canonical.machine.belongs here).production rfl hs)
    obtain ⟨e, first⟩ := canonical.exists_mem_ofString_of_opens avoids inside opens
      (canonical.isLookahead_of_hasItem avoids here)
    exact ih (canonical.machine.hasItem_of_mem_ofString here mem rfl first)
  | @behind s rest vanishes later ih =>
    -- reductions without symbols take the first symbol to the stack
    obtain ⟨v, begins⟩ := later.exists_derives
    have first : Item.lookaheadOf input ∈ p.machine.grammar.firstTable.ofString (rest ++ [b]) :=
      canonical.mem_ofString_of_derives avoids (begins.concat .refl)
        (canonical.mem_ofString_cons known _)
    obtain ⟨_, taken, _, replays, there⟩ := canonical.replays_of_vanishes avoids free (u := [s])
      vanishes here first known
    exact (ih there).of_replays replays rfl

omit avoids in
/-- The start item is finished by acceptance. -/
private theorem finishes_startItem :
    p.Finishes [] (Automaton.startItem p.machine.grammar g.start) := by
  rintro taken input - mark complete
  have ending := canonical.machine.action_of_complete
    (fun _ _ => canonical.machine.lookahead_of_start canonical.start_not_mem_occurrences) free
    complete rfl (.inr rfl)
  have action := (ending.resolve_right fun other => other.1 rfl).2
  change p.machine.table.action _ (Automaton.startItem p.machine.grammar g.start).lookahead = _
    at action
  rw [mark] at action
  exact Machine.Consumes.resolves (.inr (.inr action))

variable (productive : p.machine.grammar.Productive)
include productive

/-- Behind the left-hand side of a predicted item its lookahead is resolved: it is offered there, or
the rest of the predicting item vanishes and this one is finished in turn. -/
theorem finishes_of_mem_predictions {stack : List Frame} {item q : Item}
    (here : p.automaton.HasItem (topState stack) item) (finishes : p.Finishes stack item)
    (predicted : q ∈ item.predictions p.machine.grammar) : p.Finishes stack q := by
  have belongs := (canonical.machine.belongs here).production
  obtain ⟨lhs, before, after, b⟩ := item
  obtain ⟨production, mem, rest, a, rfl, first, rfl⟩ :=
    canonical.exists_production_of_mem_predictions belongs predicted
  have occurs := Item.rest_subset_occurrences belongs rfl
  have known := canonical.isLookahead_of_hasItem avoids here
  rintro taken input length rfl complete
  have known' := canonical.isLookahead_of_mem_ofString avoids occurs known first
  obtain ⟨target, reduced, there⟩ := canonical.machine.replays_reduction
    canonical.start_not_mem_occurrences free here complete known' length
  refine Machine.Resolves.of_replays ?_ reduced rfl
  rcases canonical.cases_of_mem_ofString avoids occurs known first with
    ⟨v, derives⟩ | ⟨same, vanishes⟩
  · have offered := Grammar.Offers.of_derives productive derives fun s hs =>
      Grammar.occurrences_subset_symbols (occurs hs)
    exact canonical.resolves_of_offers avoids free offered known' there
  · rw [← List.append_nil rest] at there
    obtain ⟨_, more, length', replays, last⟩ := canonical.replays_of_vanishes avoids free vanishes
      there (same ▸ canonical.mem_ofString_cons known []) known'
    have finished := finishes (more ++ [⟨production.lhs, target⟩]) input (by simp [length']) same.symm
      (by simpa [Item.rhs, same] using last)
    rw [List.append_assoc] at finished
    exact finished.of_replays replays rfl

/-- The items on top of a path are finished. -/
theorem finishes_of_path {stack : List Frame}
    (path : Automaton.Path p.machine.grammar p.automaton stack) {item : Item}
    (here : p.automaton.HasItem (topState stack) item) : p.Finishes stack item := by
  -- the start item accepts, a moved dot leaves less to be taken, and a prediction goes back to its item
  refine path.hasItem_induction canonical.machine.toCanonical (Q := fun stack => p.Finishes stack)
    (canonical.finishes_startItem free) (fun frame below item rest _ finishes after => ?_)
    (fun stack item there finishes q => ?_) here
  · rintro taken input length current complete
    have whole := finishes (taken ++ [frame]) input
      (by rw [after, List.length_append, length]; rfl) current
    rw [List.append_assoc] at whole
    refine whole ?_
    simpa [Item.rhs, after] using complete
  · exact canonical.finishes_of_mem_predictions avoids free productive there finishes

/-- On a path, whatever the table acts on is resolved. -/
theorem resolves_of_action {c : Configuration}
    (path : Automaton.Path p.machine.grammar p.automaton c.stack)
    (acts : p.machine.action c ≠ .error) : p.machine.Resolves c := by
  cases canonical.machine.stepCase path with
  | @shift target action => exact Machine.Consumes.resolves (.inl ⟨target, action⟩)
  | @goto target action => exact Machine.Consumes.resolves (.inr (.inl ⟨target, action⟩))
  | accept action => exact Machine.Consumes.resolves (.inr (.inr action))
  | @reduce _ _ item popped below _ _ _ here complete lookahead _ stack symbols initial =>
    obtain ⟨stack', input⟩ := c
    obtain rfl : stack' = popped ++ below := stack
    have length := congrArg List.length symbols
    rw [List.length_map, List.length_reverse] at length
    refine canonical.finishes_of_path avoids free productive path.of_append initial popped input length
      lookahead.symm ?_
    obtain ⟨lhs, before, after, b⟩ := item
    obtain rfl : after = [] := complete
    exact here
  | recover action => exact absurd action acts
  | reject action => exact absurd action acts

omit free productive in
/-- A step from a configuration that takes the current symbol leaves less of the input. -/
theorem length_input_lt_of_consumes {c d : Configuration} (consumes : p.machine.Consumes c)
    (next : p.machine.step c = .next d) : d.input.length < c.input.length := by
  have take : ∀ target, (p.machine.action c = .shift target ∨ p.machine.action c = .goto target) →
      (c.take target).input.length < c.input.length := by
    intro target acts
    rw [(canonical.input_of_occurs avoids (canonical.occurs_of_take acts)).1]
    exact Nat.lt_succ_self _
  rcases consumes with ⟨target, action⟩ | ⟨target, action⟩ | action
  · simp only [Machine.step, action] at next
    cases next
    exact take target (.inl action)
  · simp only [Machine.step, action] at next
    cases next
    exact take target (.inr action)
  · simp only [Machine.step, action] at next
    cases next

/-- After an error from which the machine recovers, a run takes the current symbol or accepts before
it meets another one. -/
theorem exists_consumes_of_error {input : List Symbol} {n : Nat} {c c' : Configuration}
    (reaches : p.machine.Reaches input n c) (error : p.machine.action c = .error)
    (next : p.machine.step c = .next c') :
    ∃ k d, p.machine.Reaches input (n + 1 + k) d ∧ d.input = c.input ∧ p.machine.Consumes d ∧
      ∀ j ≤ k, ∀ e, p.machine.Reaches input (n + 1 + j) e → p.machine.action e ≠ .error := by
  obtain ⟨_, _, _, rfl, acts⟩ := canonical.machine.exists_append_of_error
    (canonical.machine.path_of_reaches reaches) error next
  have reaches' := reaches.next next
  obtain ⟨_, d, ⟨rows, steps, _, clean⟩, same, consumes⟩ := canonical.resolves_of_action avoids free
    productive (canonical.machine.path_of_reaches reaches') acts
  have there := steps.reaches reaches'
  refine ⟨rows.length, d, there, same, consumes, fun j le e between => ?_⟩
  rcases Nat.lt_or_eq_of_le le with less | rfl
  · exact steps.action_ne_error clean reaches' less between
  · rw [between.unique there]
    exact consumes.action_ne_error

/-- From one error to the next, some of the input has been taken. -/
theorem length_input_lt_of_error {input : List Symbol} {n k : Nat} {c d : Configuration}
    (reaches : p.machine.Reaches input n c) (error : p.machine.action c = .error)
    (later : p.machine.Reaches input k d) (error' : p.machine.action d = .error) (less : n < k) :
    d.input.length < c.input.length := by
  obtain ⟨c', next, _⟩ := reaches.exists_step later less
  obtain ⟨j, e, between, same, consumes, clean⟩ :=
    canonical.exists_consumes_of_error avoids free productive reaches error next
  have behind : n + 1 + j < k := by
    by_contra before
    obtain ⟨i, rfl⟩ := Nat.exists_eq_add_of_le (Nat.succ_le_of_lt less)
    exact clean i (by omega) d later error'
  obtain ⟨e', next', reaches'⟩ := between.exists_step later behind
  have shorter := canonical.length_input_lt_of_consumes avoids consumes next'
  have further := reaches'.length_input_le later behind
  rw [← same]
  omega

end Canonical

/-- Recovery makes progress. In the parser of a grammar without the end mark, whose non-terminals all
derive terminal strings and whose automaton has no conflicts, an error that does not end the run is
followed by steps without errors up to one in which the current symbol, the same one, is taken to the
stack or accepted at. So between two errors of a run some of the input is taken. -/
theorem consumes_of_error {g : Grammar} {p : Parser} (lhs : g.LeftHandSidesNonTerminal)
    (kinds : g.OneKindPerName) (avoids : g.AvoidsEndMark) (productive : g.Productive)
    (built : ofGrammar g = .ok p) (free : p.automaton.ConflictFree) {input : List Symbol} {n : Nat}
    {c : Configuration} (reaches : p.machine.Reaches input n c)
    (error : p.machine.action c = .error) :
    (p.machine.step c = .halt .rejected ∨
      ∃ k d, p.machine.Reaches input (n + 1 + k) d ∧ d.input = c.input ∧ p.machine.Consumes d ∧
        ∀ j ≤ k, ∀ e, p.machine.Reaches input (n + 1 + j) e → p.machine.action e ≠ .error) ∧
    ∀ k d, n < k → p.machine.Reaches input k d → p.machine.action d = .error →
      d.input.length < c.input.length := by
  have canonical := canonical_of_ofGrammar lhs kinds built
  have prepared := canonical.productive productive
  refine ⟨?_, fun k d less later error' =>
    canonical.length_input_lt_of_error avoids free prepared reaches error later error' less⟩
  cases step : p.machine.step c with
  | next c' =>
    exact .inr (canonical.exists_consumes_of_error avoids free prepared reaches error step)
  | halt verdict =>
    rcases Machine.action_of_halt step with ⟨_, accepts⟩ | ⟨rejected, _⟩
    · cases accepts.symm.trans error
    · exact .inl (by rw [rejected])
  | fail defect =>
    exact absurd step
      (canonical.machine.step_ne_fail (canonical.machine.path_of_reaches reaches) defect)

/-- Without a right operand the equals sign is dropped, and the end mark is accepted at. -/
theorem consumes_assignments_of_error : assignments.LeftHandSidesNonTerminal ∧
    assignments.OneKindPerName ∧ assignments.AvoidsEndMark ∧ assignments.Productive ∧
    ∃ p n c k d, ofGrammar assignments = .ok p ∧ p.automaton.ConflictFree ∧
      p.machine.Reaches [.terminal "n", .terminal "="] n c ∧ p.machine.action c = .error ∧
      p.machine.Reaches [.terminal "n", .terminal "="] (n + 1 + k) d ∧ d.input = c.input ∧
      p.machine.Consumes d := by
  have lhs : assignments.LeftHandSidesNonTerminal := by decide +kernel
  have kinds : assignments.OneKindPerName := by decide +kernel
  have avoids : assignments.AvoidsEndMark := by decide +kernel
  obtain ⟨p, built⟩ := exists_ofGrammar (g := assignments) (by decide +kernel)
  have computed := of_any_ofGrammar (f := fun p => decide p.automaton.ConflictFree &&
    (p.parse 20 [.terminal "n", .terminal "="]).any fun result =>
      result.toOption.any fun trace => trace.isAccepted && trace.hadError) built (by decide +kernel)
  rw [Bool.and_eq_true, decide_eq_true_eq] at computed
  obtain ⟨free, run⟩ := computed
  obtain ⟨trace, parsed, ended⟩ := Machine.exists_trace_of_any run
  obtain ⟨accepted, met⟩ := Bool.and_eq_true_iff.mp ended
  obtain ⟨n, c, c', reaches, error, next⟩ := Machine.exists_step_of_error parsed accepted met
  rcases (consumes_of_error lhs kinds avoids productive_assignments built free reaches error).1 with
    rejected | ⟨k, d, later, same, consumes, _⟩
  · cases next.symm.trans rejected
  · exact ⟨lhs, kinds, avoids, productive_assignments, p, n, c, k, d, built, free, reaches, error,
      later, same, consumes⟩

end Parser

end CanonicalLR
