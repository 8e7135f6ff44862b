import CanonicalLR.Proofs.Machine.Walks
import CanonicalLR.Proofs.Parser.Detection

/-!
The states of a parser's automaton hold just the valid items. A string of symbols is followed from
state 0 by transitions; an item is in the state that is reached exactly if it is valid for the string,
and there is a state exactly if some item is. One direction is by induction on the string, with the
items on top of a path (`Canonical.valid_of_path`). The other one starts from the item with nothing
before its dot, which is there by induction on the rightmost derivation
(`Machine.Canonical.exists_hasItem_of_rightmostDerives`), and moves the dot along the path.
-/

set_option autoImplicit false
set_option relaxedAutoImplicit false

namespace CanonicalLR

namespace Parser

namespace Canonical

variable {g : Grammar} {p : Parser} (canonical : p.Canonical g)
include canonical

/-- A valid item is in the state that its path leads to. -/
theorem exists_walk?_of_valid (avoids : g.AvoidsEndMark) {path : List Symbol} {item : Item}
    (valid : item.Valid p.machine.grammar path) :
    ∃ id, p.automaton.walk? 0 path = some id ∧ p.automaton.HasItem id item := by
  obtain ⟨mem, productions, left, rest, derives, terminals, rfl, lookahead⟩ := valid
  obtain ⟨id, walk, initial, _⟩ := canonical.machine.exists_hasItem_of_rightmostDerives
    canonical.computed (canonical.avoidsEndMark avoids) mem terminals derives
  obtain ⟨target, walk', there⟩ := canonical.machine.exists_walk?_of_hasItem initial
  refine ⟨target, (Automaton.walk?_append walk item.before).trans walk', ?_⟩
  rw [← lookahead, List.nil_append] at there
  exact there

/-- The items of the state that a path leads to are valid for it, up to the kinds of its symbols, and
there are some. -/
theorem valid_of_walk? (avoids : g.AvoidsEndMark) (productive : g.Productive)
    {path : List Symbol} {id : Nat} (walk : p.automaton.walk? 0 path = some id) :
    ∃ spelled, (path == spelled) = true ∧
      (∀ item, p.automaton.HasItem id item → item.Valid p.machine.grammar spelled) ∧
      ∃ item, p.automaton.HasItem id item := by
  obtain ⟨stack, spells, rfl, same⟩ := canonical.machine.exists_path_of_walk? .nil walk
  rw [List.append_nil] at spells ⊢
  exact ⟨_, same, fun item here => canonical.valid_of_path avoids productive spells here,
    canonical.machine.exists_hasItem_of_path spells⟩

end Canonical

/-- The items of the canonical automaton are the valid ones, where every non-terminal derives a
terminal string and the end mark is no symbol of the grammar. An item is in the state to which a string
of symbols leads from state 0 exactly if it is valid for the string, and the string leads to a state
exactly if some item is valid for it. Transitions tell symbols apart by name, so that it does not
matter in which kinds the symbols of the string are given. -/
theorem hasItem_walk?_iff_valid {g : Grammar} (lhs : g.LeftHandSidesNonTerminal)
    (kinds : g.OneKindPerName) (avoids : g.AvoidsEndMark) (named : g.start.isEmpty = false)
    (productive : g.Productive) :
    ∃ a, Automaton.ofGrammar g.prepare = .ok a ∧ ∀ path : List Symbol,
      (∀ item : Item, (∃ id, a.walk? 0 path = some id ∧ a.HasItem id item) ↔
        ∃ spelled, (path == spelled) = true ∧ item.Valid g.prepare spelled) ∧
      ((∃ id, a.walk? 0 path = some id) ↔
        ∃ item spelled, (path == spelled) = true ∧ Item.Valid g.prepare spelled item) := by
  obtain ⟨p, built⟩ := exists_ofGrammar named
  have canonical := canonical_of_ofGrammar lhs kinds built
  have same : p.machine.grammar = g.prepare := canonical.prepared
  refine ⟨p.automaton, (parts_of_ofGrammar built).2.1, fun path => ?_⟩
  rw [← same]
  have back : ∀ item spelled, (path == spelled) = true → Item.Valid p.machine.grammar spelled item →
      ∃ id, p.automaton.walk? 0 path = some id ∧ p.automaton.HasItem id item := by
    intro item spelled spells valid
    rw [Automaton.walk?_congr 0 spells]
    exact canonical.exists_walk?_of_valid avoids valid
  refine ⟨fun item => ⟨?_, ?_⟩, ?_, ?_⟩
  · rintro ⟨id, walk, here⟩
    obtain ⟨spelled, spells, valid, _⟩ := canonical.valid_of_walk? avoids productive walk
    exact ⟨spelled, spells, valid item here⟩
  · rintro ⟨spelled, spells, valid⟩
    exact back item spelled spells valid
  · rintro ⟨id, walk⟩
    obtain ⟨spelled, spells, valid, item, here⟩ := canonical.valid_of_walk? avoids productive walk
    exact ⟨item, spelled, spells, valid item here⟩
  · rintro ⟨item, spelled, spells, valid⟩
    obtain ⟨id, walk, _⟩ := back item spelled spells valid
    exact ⟨id, walk⟩

/-- Behind `L =` a name is expected, with the end mark behind it. -/
theorem hasItem_assignments_of_valid : assignments.LeftHandSidesNonTerminal ∧
    assignments.OneKindPerName ∧ assignments.AvoidsEndMark ∧ assignments.start.isEmpty = false ∧
    assignments.Productive ∧ ∃ a, Automaton.ofGrammar assignments.prepare = .ok a ∧
      ∃ id, a.walk? 0 [.nonTerminal "L", .terminal "="] = some id ∧
        a.HasItem id (.initial (.nonTerminal "L") [.terminal "n"] .endMark) := by
  have lhs : assignments.LeftHandSidesNonTerminal := by decide +kernel
  have kinds : assignments.OneKindPerName := by decide +kernel
  have avoids : assignments.AvoidsEndMark := by decide +kernel
  have named : assignments.start.isEmpty = false := by decide +kernel
  have derives : assignments.prepare.RightmostDerives [⟨.nonTerminal "S'", [.nonTerminal "S"]⟩,
      ⟨.nonTerminal "S", [.nonTerminal "L", .terminal "=", .nonTerminal "R"]⟩,
      ⟨.nonTerminal "R", [.nonTerminal "L"]⟩] [assignments.prepare.start]
      ([.nonTerminal "L", .terminal "="] ++ .nonTerminal "L" :: []) := by
    refine @Grammar.RightmostDerives.head assignments.prepare
      ⟨.nonTerminal "S'", [.nonTerminal "S"]⟩ [] [] _ _ (by decide +kernel) (by decide) ?_
    refine @Grammar.RightmostDerives.head assignments.prepare
      ⟨.nonTerminal "S", [.nonTerminal "L", .terminal "=", .nonTerminal "R"]⟩ [] [] _ _
      (by decide +kernel) (by decide) ?_
    refine @Grammar.RightmostDerives.head assignments.prepare
      ⟨.nonTerminal "R", [.nonTerminal "L"]⟩ [.nonTerminal "L", .terminal "="] [] _ _
      (by decide +kernel) (by decide) ?_
    exact .refl _
  have valid : Item.Valid assignments.prepare [.nonTerminal "L", .terminal "="]
      (.initial (.nonTerminal "L") [.terminal "n"] .endMark) :=
    ⟨by decide +kernel, _, _, [], derives, by decide, rfl, rfl⟩
  obtain ⟨a, built, items⟩ :=
    hasItem_walk?_iff_valid lhs kinds avoids named productive_assignments
  exact ⟨lhs, kinds, avoids, named, productive_assignments, a, built,
    ((items _).1 _).mpr ⟨_, by decide, valid⟩⟩

end Parser

end CanonicalLR
