import CanonicalLR.Parser
import CanonicalLR.Proofs.Grammar.First
import CanonicalLR.Proofs.Grammar.Preparation
import CanonicalLR.Proofs.Machine.Actions
import CanonicalLR.Proofs.Machine.Paths

/-!
A parser can be built whenever the start symbol has a name. Where left-hand sides are non-terminals and
every name has one kind, its machine is canonical for the prepared grammar.
-/

set_option autoImplicit false
set_option relaxedAutoImplicit false

namespace CanonicalLR.Parser

/-- The parser of a grammar with one kind for every name, seen through the prepared grammar. -/
structure Canonical (p : Parser) (g : Grammar) : Prop where
  machine : p.machine.Canonical g.start p.automaton
  prepared : p.grammar = g.prepare
  named : g.start.isEmpty = false

variable {g : Grammar} {p : Parser}

theorem parts_of_ofGrammar (built : ofGrammar g = .ok p) :
    p.grammar = g.prepare ∧ Automaton.ofGrammar g.prepare = .ok p.automaton ∧
      ActionTable.ofAutomaton g.prepare p.automaton = .ok p.table := by
  unfold ofGrammar at built
  cases automaton : Automaton.ofGrammar g.prepare with
  | error e =>
    simp only [automaton] at built
    cases built
  | ok a =>
    cases table : ActionTable.ofAutomaton g.prepare a with
    | error e =>
      simp only [automaton, bind, Except.bind, table] at built
      cases built
    | ok t =>
      simp only [automaton, bind, Except.bind, table] at built
      cases built
      exact ⟨rfl, rfl, table⟩

/-- With a named start symbol there is a parser. -/
theorem exists_ofGrammar (named : g.start.isEmpty = false) : ∃ p, ofGrammar g = .ok p := by
  obtain ⟨_, a, t, _, automaton, table, _⟩ :=
    Machine.exists_parts (Grammar.isAugmented_prepare named) Grammar.rules_prepare
  exact ⟨⟨g.prepare, a, t⟩,
    by simp [ofGrammar, automaton, table, bind, Except.bind, pure, Except.pure]⟩

/-- What a computed parser shows. -/
theorem of_any_ofGrammar {f : Parser → Bool} (built : ofGrammar g = .ok p)
    (h : (ofGrammar g).toOption.any f = true) : f p = true := by
  rwa [built] at h

section Disciplined

variable (lhs : g.LeftHandSidesNonTerminal) (kinds : g.OneKindPerName)
include lhs kinds

private theorem exists_machine (named : g.start.isEmpty = false) : ∃ a t,
    Automaton.ofGrammar g.prepare = .ok a ∧ ActionTable.ofAutomaton g.prepare a = .ok t ∧
      (⟨g.prepare, t⟩ : Machine).Canonical g.start a := by
  obtain ⟨goal, a, t, automaton, table, canonical⟩ := Machine.exists_canonical
    (Grammar.isAugmented_prepare named) (lhs.prepare named) (kinds.prepare named)
    (Grammar.holdsTerminals_firstTable g.augment.numberRules) Grammar.rules_prepare
  have alternatives : g.prepare.alternatives g.prepare.start = [[g.start]] :=
    Grammar.alternatives_freshStart named
  have same : [[goal]] = [[g.start]] := canonical.augmented.symm.trans alternatives
  cases same
  exact ⟨a, t, automaton, table, canonical⟩

/-- What has been built for a grammar is canonical. -/
theorem canonical_of_ofGrammar (built : ofGrammar g = .ok p) : p.Canonical g := by
  obtain ⟨prepared, automaton, table⟩ := parts_of_ofGrammar built
  have named := Grammar.named_of_isAugmented_prepare
    (Automaton.isAugmented_of_ofGrammar automaton)
  obtain ⟨a, t, automaton', table', canonical⟩ := exists_machine lhs kinds named
  obtain rfl := Except.ok.inj (automaton'.symm.trans automaton)
  obtain rfl := Except.ok.inj (table'.symm.trans table)
  obtain ⟨grammar, a, t⟩ := p
  cases prepared
  exact ⟨canonical, rfl, named⟩

end Disciplined

/-- Of a grammar whose left-hand sides are non-terminals and that uses no name with both kinds, the
parser never misses a rule, a right-hand side on the stack or a goto: no step of a run fails, and no
run ends in a failure. -/
theorem parse_ne_defect {g : Grammar} {p : Parser} (lhs : g.LeftHandSidesNonTerminal)
    (kinds : g.OneKindPerName) (built : ofGrammar g = .ok p) (input : List Symbol) :
    (∀ n c defect, p.machine.Reaches input n c → p.machine.step c ≠ .fail defect) ∧
      ∀ limit defect, p.parse limit input ≠ some (.error defect) := by
  have canonical := (canonical_of_ofGrammar lhs kinds built).machine
  have steps : ∀ n c defect, p.machine.Reaches input n c → p.machine.step c ≠ .fail defect :=
    fun n c defect reaches => canonical.step_ne_fail (canonical.path_of_reaches reaches) defect
  refine ⟨steps, fun limit defect ended => ?_⟩
  obtain ⟨n, c, reaches, fails⟩ := Machine.reaches_of_run_error ended
  exact steps n c defect reaches fails

/-- The ambiguous grammar `S -> S S | a | $ | `, which derives `S` from itself. -/
def doubling : Grammar :=
  (Grammar.ofStart (.nonTerminal "S")).pushAll (.nonTerminal "S")
    [[.nonTerminal "S", .nonTerminal "S"], [.terminal "a"], [.endMark], []]

theorem parse_doubling_ne_defect : doubling.LeftHandSidesNonTerminal ∧ doubling.OneKindPerName ∧
    ∃ p, ofGrammar doubling = .ok p ∧ ¬ p.automaton.ConflictFree ∧ ∀ limit defect,
      p.parse limit [.terminal "a", .nonTerminal "b", .endMark, .nonTerminal "S", .terminal "b"] ≠
        some (.error defect) := by
  have lhs : doubling.LeftHandSidesNonTerminal := by decide +kernel
  have kinds : doubling.OneKindPerName := by decide +kernel
  obtain ⟨p, built⟩ := exists_ofGrammar (g := doubling) (by decide +kernel)
  have conflicts := of_any_ofGrammar (f := fun p => !decide p.automaton.ConflictFree) built
    (by decide +kernel)
  exact ⟨lhs, kinds, p, built, by simpa using conflicts, (parse_ne_defect lhs kinds built _).2⟩

end CanonicalLR.Parser
