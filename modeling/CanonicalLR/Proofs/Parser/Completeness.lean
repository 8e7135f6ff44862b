import CanonicalLR.Proofs.Parser.Soundness

/-!
A parser without conflicts replays every rightmost derivation of a terminal string. The induction is
on the expansion of what stands after the dot of an item on top of the stack: terminals are shifted,
and a production's right-hand side has been taken to the stack when it is reduced.
-/

set_option autoImplicit false
set_option relaxedAutoImplicit false

namespace CanonicalLR

namespace Machine.Canonical

variable {m : Machine} {goal : Symbol} {a : Automaton} (canonical : m.Canonical goal a)
include canonical

/-- A terminal after the dot of an item is shifted, and the dot moves over it. -/
theorem replays_terminal {stack : List Frame} {lhs s b : Symbol} {before after : List Symbol}
    (here : a.HasItem (topState stack) ⟨lhs, before, s :: after, b⟩) (kind : s.isTerminal = true)
    (rest : List Symbol) : ∃ target, m.Replays ⟨stack, s :: rest⟩ [] ⟨⟨s, target⟩ :: stack, rest⟩ ∧
      a.HasItem (topState (⟨s, target⟩ :: stack)) ⟨lhs, before ++ [s], after, b⟩ := by
  obtain ⟨target, edge, there⟩ := canonical.advance here rfl
  have mem : s ∈ m.grammar.terminals := Grammar.mem_terminals.mpr
    ⟨Item.next_mem_occurrences (canonical.belongs here).production rfl, kind⟩
  have action : m.action ⟨stack, s :: rest⟩ = .shift target :=
    canonical.shift_of_transition? edge mem
  exact ⟨target, .shift action, there⟩

/-- A complete item below which another one expects its left-hand side is reduced, and the dot of
the other moves over the left-hand side. -/
theorem replays_reduction (fresh : m.grammar.start ∉ m.grammar.occurrences) (free : a.ConflictFree)
    {stack popped : List Frame} {lhs b : Symbol} {before after : List Symbol}
    {production : Production}
    (here : a.HasItem (topState stack) ⟨lhs, before, production.lhs :: after, b⟩)
    {rest : List Symbol} (complete : a.HasItem (topState (popped ++ stack))
      ⟨production.lhs, production.rhs, [], Item.lookaheadOf rest⟩)
    (known : m.grammar.IsLookahead (Item.lookaheadOf rest))
    (length : popped.length = production.rhs.length) :
    ∃ target, m.Replays ⟨popped ++ stack, rest⟩ [production]
        ⟨⟨production.lhs, target⟩ :: stack, rest⟩ ∧
      a.HasItem (topState (⟨production.lhs, target⟩ :: stack))
        ⟨lhs, before ++ [production.lhs], after, b⟩ := by
  obtain ⟨target, edge, there⟩ := canonical.advance here rfl
  have occurs := Item.next_mem_occurrences (canonical.belongs here).production rfl
  have other : production.lhs ≠ m.grammar.start := fun same => fresh (same ▸ occurs)
  have belongs := (canonical.belongs complete).production
  simp only [Item.production, Item.rhs, List.append_nil] at belongs
  have goto := canonical.goto_of_transition? edge
    ((Grammar.mem_nonTerminals canonical.lhs).mpr (.inl ⟨_, belongs, rfl⟩))
  have reduces := canonical.action_of_complete
    (fun _ _ => canonical.lookahead_of_start fresh) free complete rfl known
  obtain ⟨rule, action, named⟩ := (reduces.resolve_left fun accepts => other accepts.1).2
  simp only [Item.production, Item.rhs, List.append_nil] at named
  refine ⟨target, .reduce action named ?_, there⟩
  change m.action ⟨popped ++ stack, rest⟩ = .reduce rule at action
  simp only [step, action, reduce_append length named goto rest]

end Machine.Canonical

namespace Parser

namespace Canonical

variable {g : Grammar} {p : Parser} (canonical : p.Canonical g)
include canonical

/-- A string after the dot of an item is taken to the stack along any of its expansions, where the
rest of the input begins with a symbol that can follow. -/
theorem replays_of_expands (avoids : g.AvoidsEndMark) (free : p.automaton.ConflictFree)
    {productions : List Production} {u v : List Symbol}
    (expands : p.machine.grammar.Expands productions u v) {stack : List Frame} {lhs b : Symbol}
    {before after rest : List Symbol}
    (here : p.automaton.HasItem (topState stack) ⟨lhs, before, u ++ after, b⟩)
    (first : Item.lookaheadOf rest ∈ p.machine.grammar.firstTable.ofString (after ++ [b]))
    (known : p.machine.grammar.IsLookahead (Item.lookaheadOf rest)) :
    ∃ taken, taken.length = u.length ∧
      p.machine.Replays ⟨stack, v ++ rest⟩ productions ⟨taken ++ stack, rest⟩ ∧
      p.automaton.HasItem (topState (taken ++ stack)) ⟨lhs, before ++ u, after, b⟩ := by
  induction expands generalizing stack lhs b before after rest with
  | nil => exact ⟨[], rfl, .refl _, by simpa using here⟩
  | @terminal s productions u v kind _ ih =>
    obtain ⟨target, shifted, there⟩ := canonical.machine.replays_terminal here kind (v ++ rest)
    obtain ⟨taken, length, replays, complete⟩ := ih there first known
    refine ⟨taken ++ [⟨s, target⟩], by simp [length], ?_, ?_⟩
    · simpa using shifted.trans replays
    · simpa using complete
  | @nonTerminal production inner outer u v w mem body others ihBody ihRest =>
    obtain ⟨initial, expected⟩ := canonical.machine.hasItem_of_derives canonical.computed
      (canonical.avoidsEndMark avoids) here mem rfl others.derives others.isTerminal first known
    have expects : p.automaton.HasItem (topState stack)
        ⟨production.lhs, [], production.rhs ++ [], Item.lookaheadOf (w ++ rest)⟩ := by
      rwa [List.append_nil]
    obtain ⟨popped, length, replays, complete⟩ :=
      ihBody expects (canonical.mem_ofString_cons expected []) expected
    obtain ⟨target, reduced, there⟩ := canonical.machine.replays_reduction
      canonical.start_not_mem_occurrences free here complete expected length
    obtain ⟨taken, length, last, complete⟩ := ihRest there first known
    refine ⟨taken ++ [⟨production.lhs, target⟩], by simp [length], ?_, ?_⟩
    · simpa using replays.trans (reduced.trans last)
    · simpa using complete

/-- The run on a string that the start symbol expands to accepts it, by the productions of the
expansion. -/
theorem exists_run_of_expands (avoids : g.AvoidsEndMark) (free : p.automaton.ConflictFree)
    {productions : List Production} {w : List Symbol}
    (expands : g.Expands productions [g.start] w) :
    ∃ limit trace, p.parse limit w = some (.ok trace) ∧ trace.isAccepted = true ∧
      trace.hadError = false ∧ (p.machine.reductions trace.rows).map (·.1) = productions := by
  have mark : p.machine.grammar.IsLookahead (Item.lookaheadOf [.endMark]) := .inr rfl
  have initial : p.automaton.HasItem (topState [])
      ⟨p.machine.grammar.start, [], [g.start] ++ [], Item.lookaheadOf [.endMark]⟩ :=
    canonical.machine.hasItem_startItem
  have prepared : p.machine.grammar.Expands productions [g.start] w :=
    expands.mono fun _ mem => canonical.productions_subset mem
  have whole : Machine.complete w = w ++ [.endMark] := Machine.complete_of_visible fun s mem =>
    avoids s (expands.derives.subset_symbols (by simpa using Grammar.start_mem_symbols) s mem)
  obtain ⟨taken, _, replays, complete⟩ :=
    canonical.replays_of_expands avoids free prepared initial
      (canonical.mem_ofString_cons mark []) mark
  rw [List.append_nil] at replays complete
  have accepts := canonical.machine.action_of_complete
    (fun _ _ => canonical.machine.lookahead_of_start canonical.start_not_mem_occurrences) free
    complete rfl mark
  have action : p.machine.action ⟨taken, [.endMark]⟩ = .accept :=
    (accepts.resolve_right fun other => other.1 rfl).2
  rw [← whole] at replays
  exact Machine.Replays.exists_run replays action

end Canonical

/-- The parser of a grammar without the end mark is complete where its automaton has no conflicts. It
accepts a terminal string without an error along every rightmost derivation, and its reductions read
backwards are the productions of the derivation. So it accepts every sentence, and a sentence has one
rightmost derivation only. -/
theorem parse_of_rightmostDerives {g : Grammar} (lhs : g.LeftHandSidesNonTerminal)
    (kinds : g.OneKindPerName) (avoids : g.AvoidsEndMark) (named : g.start.isEmpty = false) :
    ∃ p, ofGrammar g = .ok p ∧ (p.automaton.ConflictFree →
      ∀ w : List Symbol, (∀ s ∈ w, s.isTerminal = true) →
        (∀ productions, g.RightmostDerives productions [g.start] w →
          ∃ limit trace, p.parse limit w = some (.ok trace) ∧ trace.isAccepted = true ∧
            trace.hadError = false ∧
              ((p.machine.reductions trace.rows).map (·.1)).reverse = productions) ∧
        (g.Derives [g.start] w →
          (∃ limit trace, p.parse limit w = some (.ok trace) ∧ trace.isAccepted = true ∧
            trace.hadError = false) ∧
          ∃! productions, g.RightmostDerives productions [g.start] w)) := by
  obtain ⟨p, built⟩ := exists_ofGrammar named
  have canonical := canonical_of_ofGrammar lhs kinds built
  refine ⟨p, built, fun free w terminals => ?_⟩
  have replayed : ∀ productions, g.RightmostDerives productions [g.start] w →
      ∃ limit trace, p.parse limit w = some (.ok trace) ∧ trace.isAccepted = true ∧
        trace.hadError = false ∧
          ((p.machine.reductions trace.rows).map (·.1)).reverse = productions := by
    intro productions derivation
    obtain ⟨limit, trace, parsed, accepted, clean, reduced⟩ :=
      canonical.exists_run_of_expands avoids free (derivation.expands lhs terminals)
    exact ⟨limit, trace, parsed, accepted, clean, by rw [reduced, List.reverse_reverse]⟩
  refine ⟨replayed, fun derives => ?_⟩
  obtain ⟨productions, expands⟩ := derives.exists_expands terminals
  have derivation := expands.rightmostDerives
  obtain ⟨limit, trace, parsed, accepted, clean, reduced⟩ := replayed _ derivation
  refine ⟨⟨limit, trace, parsed, accepted, clean⟩, _, derivation, fun others other => ?_⟩
  -- both derivations are read off the one trace there is
  obtain ⟨limit', trace', parsed', _, _, reduced'⟩ := replayed others other
  cases Machine.run_unique parsed parsed'
  exact reduced'.symm.trans reduced

/-- Assignments of dereferenced names: `S -> L = R | R`, `L -> * R | n`, `R -> L`. -/
def assignments : Grammar :=
  (((Grammar.ofStart (.nonTerminal "S")).pushAll (.nonTerminal "S")
    [[.nonTerminal "L", .terminal "=", .nonTerminal "R"], [.nonTerminal "R"]]).pushAll
      (.nonTerminal "L") [[.terminal "*", .nonTerminal "R"], [.terminal "n"]]).pushAll
        (.nonTerminal "R") [[.nonTerminal "L"]]

theorem parse_assignments_of_rightmostDerives : assignments.LeftHandSidesNonTerminal ∧
    assignments.OneKindPerName ∧ assignments.AvoidsEndMark ∧
    assignments.start.isEmpty = false ∧ ∃ p, ofGrammar assignments = .ok p ∧
      p.automaton.ConflictFree ∧ ∃ limit trace,
        p.parse limit [.terminal "*", .terminal "n", .terminal "=", .terminal "n"] =
          some (.ok trace) ∧ trace.isAccepted = true ∧ trace.hadError = false ∧
        ((p.machine.reductions trace.rows).map (·.1)).reverse =
          [⟨.nonTerminal "S", [.nonTerminal "L", .terminal "=", .nonTerminal "R"]⟩,
            ⟨.nonTerminal "R", [.nonTerminal "L"]⟩, ⟨.nonTerminal "L", [.terminal "n"]⟩,
            ⟨.nonTerminal "L", [.terminal "*", .nonTerminal "R"]⟩,
            ⟨.nonTerminal "R", [.nonTerminal "L"]⟩, ⟨.nonTerminal "L", [.terminal "n"]⟩] := by
  have lhs : assignments.LeftHandSidesNonTerminal := by decide +kernel
  have kinds : assignments.OneKindPerName := by decide +kernel
  have avoids : assignments.AvoidsEndMark := by decide +kernel
  have named : assignments.start.isEmpty = false := by decide +kernel
  obtain ⟨p, built, complete⟩ := parse_of_rightmostDerives lhs kinds avoids named
  have free : p.automaton.ConflictFree := by
    have computed := of_any_ofGrammar (f := fun p => decide p.automaton.ConflictFree) built
      (by decide +kernel)
    simpa using computed
  refine ⟨lhs, kinds, avoids, named, p, built, free, (complete free _ (by decide)).1 _ ?_⟩
  refine @Grammar.RightmostDerives.head assignments
    ⟨.nonTerminal "S", [.nonTerminal "L", .terminal "=", .nonTerminal "R"]⟩ [] [] _ _
    (by decide +kernel) (by decide) ?_
  refine @Grammar.RightmostDerives.head assignments ⟨.nonTerminal "R", [.nonTerminal "L"]⟩
    [.nonTerminal "L", .terminal "="] [] _ _ (by decide +kernel) (by decide) ?_
  refine @Grammar.RightmostDerives.head assignments ⟨.nonTerminal "L", [.terminal "n"]⟩
    [.nonTerminal "L", .terminal "="] [] _ _ (by decide +kernel) (by decide) ?_
  refine @Grammar.RightmostDerives.head assignments
    ⟨.nonTerminal "L", [.terminal "*", .nonTerminal "R"]⟩ [] [.terminal "=", .terminal "n"] _ _
    (by decide +kernel) (by decide) ?_
  refine @Grammar.RightmostDerives.head assignments ⟨.nonTerminal "R", [.nonTerminal "L"]⟩
    [.terminal "*"] [.terminal "=", .terminal "n"] _ _ (by decide +kernel) (by decide) ?_
  refine @Grammar.RightmostDerives.head assignments ⟨.nonTerminal "L", [.terminal "n"]⟩
    [.terminal "*"] [.terminal "=", .terminal "n"] _ _ (by decide +kernel) (by decide) ?_
  exact .refl _

end Parser

end CanonicalLR
