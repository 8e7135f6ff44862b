import CanonicalLR.Proofs.Grammar.Kinds
import CanonicalLR.Proofs.ItemSet.Leastness
import CanonicalLR.Proofs.Parser.Construction

/-!
When a parser can be built, for a grammar of which nothing is expected: names may have both kinds,
non-terminals may be without productions, out of reach, cyclic or ambiguous. All stages of the
construction come to their ends, every item of every state has a rule number, and nothing but a nameless
start symbol stands in the way.
-/

set_option autoImplicit false
set_option relaxedAutoImplicit false

namespace CanonicalLR

/-- The stages of a construction come to their ends. Each loop has made some number of rounds, and then
it has found what it looked for, or one round more changes nothing; and the table can be filled, because
every item of every state, the complete ones that it reduces by included, has a rule number. -/
structure ConstructionEnds (g : Grammar) : Prop where
  name : ∃ n, g.freshStart = g.primedStart (n + 1) ∧ g.uses (g.primedStart (n + 1)) = false ∧
    ∀ k < n, g.uses (g.primedStart (k + 1)) = true
  first : ∃ (n : Nat) (table : FirstTable),
    table = (FirstTable.round g.augment.productions.toList)^[n] g.augment.seedTable ∧
      table.round g.augment.productions.toList = table ∧
      g.prepare.firstTable = table.set .endMark (.singleton .endMark)
  closure : ∀ set : ItemSet, ∃ n : Nat, set.closure g.prepare = (ItemSet.predict g.prepare)^[n] set ∧
    (set.closure g.prepare).predict g.prepare = set.closure g.prepare
  states : ∀ a, Automaton.ofGrammar g.prepare = .ok a → a.transitions.length = a.states.length ∧
    ∃ n, ∀ more, Automaton.explore g.prepare (n + more)
      ⟨[Automaton.startState g.prepare [g.start]], []⟩ = a
  table : ∀ a, Automaton.ofGrammar g.prepare = .ok a →
    (∀ state ∈ a.states, ∀ item ∈ state,
      ∃ rule, g.prepare.ruleNumber? item.production = some rule) ∧
    ∃ t, ActionTable.ofAutomaton g.prepare a = .ok t

variable {g : Grammar}

/-- An exploration that has processed all states is not changed by more rounds. -/
theorem Automaton.explore_of_complete {start a : Automaton} {n : Nat}
    (explored : explore g n start = a) (complete : a.transitions.length = a.states.length)
    (more : Nat) : explore g (n + more) start = a := by
  rw [explore_add, explored]
  exact explore_of_none (List.getElem?_eq_none_iff.mpr (Nat.le_of_eq complete.symm)) more

theorem constructionEnds (g : Grammar) : ConstructionEnds g where
  name := by
    obtain ⟨n, primes, free, used⟩ := Grammar.freshPrimes_spec (g := g)
    exact ⟨n, by rw [Grammar.freshStart, primes], free, used⟩
  first := by
    obtain ⟨⟨n, same⟩, fixed⟩ := Grammar.round_settledTable (g := g.augment.numberRules)
    exact ⟨n, _, same, fixed, Grammar.firstTable_computeFirst _⟩
  closure set := by
    obtain ⟨⟨n, same⟩, fixed⟩ := ItemSet.closure_eq_iterate (g := g.prepare) set
    exact ⟨n, same, fixed⟩
  states a automaton := by
    have augmented := Automaton.isAugmented_of_ofGrammar automaton
    have only : g.prepare.alternatives g.prepare.start = [[g.start]] :=
      Grammar.alternatives_freshStart (Grammar.named_of_isAugmented_prepare augmented)
    obtain ⟨goal, a', alternatives, automaton', explored, collection, _⟩ :=
      Automaton.exists_ofGrammar augmented
    cases only.symm.trans alternatives
    obtain rfl := Except.ok.inj (automaton'.symm.trans automaton)
    exact ⟨collection.complete, _, Automaton.explore_of_complete explored collection.complete⟩
  table a automaton := by
    obtain ⟨_, a', _, automaton', _, _, within⟩ :=
      Automaton.exists_ofGrammar (Automaton.isAugmented_of_ofGrammar automaton)
    obtain rfl := Except.ok.inj (automaton'.symm.trans automaton)
    have numbered : ∀ state ∈ a'.states, ∀ item ∈ state,
        ∃ rule, g.prepare.ruleNumber? item.production = some rule := fun state mem item inside =>
      (within state mem item inside).exists_ruleNumber? Grammar.rules_prepare
    exact ⟨numbered, ActionTable.exists_ofAutomaton numbered⟩

namespace Parser

/-- Without a start name the production of the fresh start symbol is empty. -/
theorem ofGrammar_of_nameless (nameless : g.start.isEmpty = true) :
    ofGrammar g = .error (.notAugmented g.freshStart) := by
  have refused : g.prepare.isAugmented = false := by
    by_contra augmented
    rw [Grammar.named_of_isAugmented_prepare (by simpa using augmented)] at nameless
    cases nameless
  have automaton : Automaton.ofGrammar g.prepare = .error (.notAugmented g.freshStart) := by
    rw [Automaton.ofGrammar, refused, Grammar.start_prepare]
  simp [ofGrammar, automaton, bind, Except.bind]

/-- The construction of a parser comes to an end for every grammar. It gives a parser exactly if the
start symbol has a name, as that of a grammar that has been read does, and otherwise reports the fresh
start symbol; a production without a rule is never met. -/
theorem construction_spec (g : Grammar) : ConstructionEnds g ∧
    ((∃ p, ofGrammar g = .ok p) ↔ g.start.isEmpty = false) ∧
    (g.start.isEmpty = true → ofGrammar g = .error (.notAugmented g.freshStart)) ∧
    (∀ production, ofGrammar g ≠ .error (.unindexedProduction production)) ∧
    ∀ text, Grammar.read text = .ok g → ∃ p, ofGrammar g = .ok p := by
  refine ⟨constructionEnds g, ⟨?_, exists_ofGrammar⟩, ofGrammar_of_nameless, fun production => ?_,
    fun text read => exists_ofGrammar (Grammar.isEmpty_start_of_read read)⟩
  · rintro ⟨p, built⟩
    by_contra nameless
    rw [ofGrammar_of_nameless (by simpa using nameless)] at built
    cases built
  · intro failed
    cases nameless : g.start.isEmpty with
    | true =>
      rw [ofGrammar_of_nameless nameless] at failed
      cases failed
    | false =>
      obtain ⟨p, built⟩ := exists_ofGrammar nameless
      cases built.symm.trans failed

/-- A start name that is also a terminal's, a cycle and a non-terminal without productions do not stand
in the way. Without a start name the fresh one is a prime. -/
theorem construction_spec_clashing :
    (∃ g p, Grammar.read "e\nE -> e F | E" = .ok g ∧ ¬ g.OneKindPerName ∧ ofGrammar g = .ok p) ∧
    ∃ g : Grammar, g.start.isEmpty = true ∧
      ofGrammar g = .error (.notAugmented (.nonTerminal "'")) := by
  constructor
  · let g := (Grammar.ofStart (.nonTerminal "e")).pushAll (.nonTerminal "E")
      [[.terminal "e", .nonTerminal "F"], [.nonTerminal "E"]]
    have read : Grammar.read "e\nE -> e F | E" = .ok g := by decide +kernel
    obtain ⟨_, _, _, _, reading⟩ := construction_spec g
    obtain ⟨p, built⟩ := reading _ read
    exact ⟨g, p, read, by decide +kernel, built⟩
  · obtain ⟨_, _, nameless, _⟩ := construction_spec (.ofStart (.nonTerminal ""))
    have fresh : (Grammar.ofStart (.nonTerminal "")).freshStart = .nonTerminal "'" := by
      decide +kernel
    exact ⟨_, rfl, by rw [nameless rfl, fresh]⟩

end Parser

end CanonicalLR
