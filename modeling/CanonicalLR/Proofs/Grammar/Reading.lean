import CanonicalLR.Grammar.Text
import CanonicalLR.Proofs.Grammar.Names

/-!
Grammars as they are read from a text. Every symbol of their productions has the kind that its name
shows, and only non-terminals stand on left-hand sides; so no name has two kinds if the name of the
start symbol begins with an uppercase character, too. What a line adds keeps to that.
-/

set_option autoImplicit false
set_option relaxedAutoImplicit false

namespace CanonicalLR

namespace Symbol

/-- A symbol has the kind that its name shows. -/
def IsSpelled (s : Symbol) : Prop := s = ofName s.name

instance (s : Symbol) : Decidable s.IsSpelled := inferInstanceAs (Decidable (s = ofName s.name))

theorem isSpelled_ofName (name : String) : (ofName name).IsSpelled := rfl

end Symbol

namespace Grammar

/-- The symbols of the productions have the kinds that their names show, and only non-terminals stand
on left-hand sides. -/
structure IsSpelled (g : Grammar) : Prop where
  symbols : ∀ production ∈ g.productions, production.Over Symbol.IsSpelled
  lhs : g.LeftHandSidesNonTerminal

variable {g : Grammar}

theorem isSpelled_ofStart (start : Symbol) : (ofStart start).IsSpelled := ⟨nofun, nofun⟩

theorem leftHandSide_cases (g : Grammar) (lhs : Symbol) :
    (∃ production ∈ g.productions, g.leftHandSide lhs = production.lhs) ∨
      g.leftHandSide lhs = lhs := by
  unfold leftHandSide
  split
  · next production found => exact .inl ⟨production, List.mem_of_find?_eq_some found, rfl⟩
  · exact .inr rfl

namespace IsSpelled

theorem push (spelled : g.IsSpelled) {lhs : Symbol} {rhs : List Symbol} (head : lhs.IsSpelled)
    (kind : lhs.isNonTerminal = true) (body : ∀ s ∈ rhs, s.IsSpelled) :
    (g.push lhs rhs).IsSpelled := by
  have left : (g.leftHandSide lhs).IsSpelled ∧ (g.leftHandSide lhs).isNonTerminal = true := by
    rcases g.leftHandSide_cases lhs with ⟨production, mem, same⟩ | same
    · rw [same]
      exact ⟨(spelled.symbols production mem).1, spelled.lhs production mem⟩
    · rw [same]
      exact ⟨head, kind⟩
  constructor
  · intro production mem
    rcases OrderedSet.eq_or_mem_of_mem_insert mem with rfl | old
    · exact ⟨left.1, fun s hs => body s (List.mem_filter.mp hs).1⟩
    · exact spelled.symbols production old
  · intro production mem
    rcases OrderedSet.eq_or_mem_of_mem_insert mem with rfl | old
    · exact left.2
    · exact spelled.lhs production old

/-- A symbol that is not the start symbol has the kind that its name shows. -/
theorem eq_start_or_isSpelled (spelled : g.IsSpelled) {s : Symbol} (mem : s ∈ g.symbols) :
    s = g.start ∨ s.IsSpelled := by
  rcases List.mem_cons.mp mem with same | mem
  · exact .inl same
  · rcases List.mem_append.mp mem with mem | mem
    · obtain ⟨production, here, rfl⟩ := List.mem_map.mp mem
      exact .inr (spelled.symbols production here).1
    · obtain ⟨production, here, hs⟩ := mem_occurrences.mp mem
      exact .inr ((spelled.symbols production here).2 s hs)

/-- A start symbol of the kind that its name shows leaves every name with one kind. -/
theorem oneKindPerName (spelled : g.IsSpelled) (start : g.start.IsSpelled) :
    g.OneKindPerName := by
  have all : ∀ s ∈ g.symbols, s.IsSpelled := by
    intro s mem
    rcases spelled.eq_start_or_isSpelled mem with rfl | shown
    · exact start
    · exact shown
  intro a ha b hb name
  rw [all a ha, all b hb, name]

end IsSpelled

private theorem isSpelled_of_mem_readAlternatives {text : List Char} {rhs : List Symbol}
    (mem : rhs ∈ readAlternatives text) : ∀ s ∈ rhs, s.IsSpelled := by
  obtain ⟨alternative, _, rfl⟩ := List.mem_map.mp mem
  intro s hs
  obtain ⟨name, _, rfl⟩ := List.mem_map.mp hs
  exact Symbol.isSpelled_ofName name

/-- The symbols of a line that is read have the kinds that their names show. -/
theorem isSpelled_of_readRule {line : List Char × Nat} {lhs : Symbol}
    {alternatives : List (List Symbol)} (read : readRule line = .ok (lhs, alternatives)) :
    lhs.IsSpelled ∧ lhs.isNonTerminal = true ∧ ∀ rhs ∈ alternatives, ∀ s ∈ rhs, s.IsSpelled := by
  unfold readRule at read
  split at read
  · cases read
  · dsimp only at read
    split at read
    · cases read
    · next fault =>
      cases read
      rw [Bool.or_eq_true, not_or, Symbol.isTerminal_eq_not] at fault
      exact ⟨Symbol.isSpelled_ofName _, by simpa using fault.2,
        fun rhs => isSpelled_of_mem_readAlternatives⟩

/-- The empty name does not show a non-terminal. -/
theorem isEmpty_of_isNonTerminal_ofName {s : Symbol}
    (capital : (Symbol.ofName s.name).isNonTerminal = true) : s.isEmpty = false := by
  refine beq_eq_false_iff_ne.mpr fun unnamed => ?_
  rw [unnamed] at capital
  cases capital

end Grammar

end CanonicalLR
