import CanonicalLR.Grammar.Derivation
import CanonicalLR.Proofs.Item.Validity
import CanonicalLR.Proofs.Machine.Lookaheads
import CanonicalLR.Proofs.Parser.Construction

/-!
What the items of a parser predict, in terms of derivations. FIRST is exact in the prepared grammar,
so an item predicts the productions of the symbol after its dot with just those lookaheads that can
follow.
-/

set_option autoImplicit false
set_option relaxedAutoImplicit false

namespace CanonicalLR.Parser.Canonical

variable {g : Grammar} {p : Parser} (canonical : p.Canonical g)
include canonical

/-- The grammar's own productions are those of the prepared grammar without the start production. -/
theorem mem_productions {production : Production}
    (mem : production ∈ p.machine.grammar.productions)
    (other : production.lhs ≠ p.machine.grammar.start) : production ∈ g.productions := by
  change production ∈ p.grammar.productions at mem
  change production.lhs ≠ p.grammar.start at other
  rw [canonical.prepared] at mem other
  rcases (Grammar.mem_productions_prepare canonical.named).mp mem with rfl | old
  · exact absurd rfl other
  · exact old

theorem productions_subset {production : Production} (mem : production ∈ g.productions) :
    production ∈ p.machine.grammar.productions := by
  change production ∈ p.grammar.productions
  rw [canonical.prepared]
  exact Grammar.productions_subset_prepare canonical.named mem

/-- The start symbol of the prepared grammar stands in no right-hand side. -/
theorem start_not_mem_occurrences :
    p.machine.grammar.start ∉ p.machine.grammar.occurrences := by
  change p.grammar.start ∉ p.grammar.occurrences
  rw [canonical.prepared]
  exact Grammar.start_not_mem_occurrences_prepare canonical.named

/-- What occurs in the prepared grammar is a symbol of the grammar. -/
theorem mem_symbols {s : Symbol} (mem : s ∈ p.machine.grammar.occurrences) : s ∈ g.symbols := by
  change s ∈ p.grammar.occurrences at mem
  rw [canonical.prepared] at mem
  exact Grammar.mem_symbols_of_mem_occurrences canonical.named mem

/-- Where the non-terminals of the grammar derive terminal strings, so do those of the prepared one. -/
theorem productive (productive : g.Productive) : p.machine.grammar.Productive := by
  change p.grammar.Productive
  rw [canonical.prepared]
  exact productive.prepare canonical.named

/-- What an item predicts is a production of the symbol after its dot, with a lookahead that FIRST
finds behind the symbol. -/
theorem exists_production_of_mem_predictions {item q : Item}
    (belongs : item.production ∈ p.machine.grammar.productions)
    (predicted : q ∈ item.predictions p.machine.grammar) :
    ∃ production ∈ p.machine.grammar.productions, ∃ rest a, item.after = production.lhs :: rest ∧
      a ∈ p.machine.grammar.firstTable.ofString (rest ++ [item.lookahead]) ∧
      q = .initial production.lhs production.rhs a := by
  obtain ⟨B, rest, after, _, a, first, rhs, alternative, rfl⟩ := Item.mem_predictions.mp predicted
  have mem : ⟨B, rhs⟩ ∈ p.machine.grammar.productions :=
    (Grammar.mem_alternatives_iff canonical.machine.kinds (Grammar.occurrences_subset_symbols
      (Item.next_mem_occurrences belongs after))).mp alternative
  exact ⟨_, mem, rest, a, after, first, rfl⟩

/-- The FIRST sets of the prepared grammar are computed once it has its rule numbers. -/
theorem computed : p.machine.grammar = g.augment.numberRules.computeFirst := canonical.prepared

/-- FIRST of a string that begins with a terminal holds the terminal. -/
theorem mem_ofString_cons {t : Symbol} (known : p.machine.grammar.IsLookahead t)
    (string : List Symbol) : t ∈ p.machine.grammar.firstTable.ofString (t :: string) :=
  canonical.machine.mem_ofString_cons canonical.computed known string

section Lookaheads

variable (avoids : g.AvoidsEndMark)
include avoids

theorem avoidsEndMark : p.machine.grammar.AvoidsEndMark := by
  rw [canonical.computed]
  exact avoids.prepare canonical.named

/-- What FIRST holds of a derived string it holds of the string. -/
theorem mem_ofString_of_derives {u v : List Symbol} (derives : p.machine.grammar.Derives u v)
    {a : Symbol} (mem : a ∈ p.machine.grammar.firstTable.ofString v) :
    a ∈ p.machine.grammar.firstTable.ofString u :=
  canonical.machine.mem_ofString_of_derives canonical.computed (canonical.avoidsEndMark avoids)
    derives mem

/-- What FIRST holds of a string with a lookahead behind it the string begins with. -/
theorem begins_of_mem_ofString {string : List Symbol} {b a : Symbol}
    (occur : ∀ s ∈ string, s ∈ p.machine.grammar.occurrences)
    (known : p.machine.grammar.IsLookahead b)
    (mem : a ∈ p.machine.grammar.firstTable.ofString (string ++ [b])) :
    p.machine.grammar.Begins (string ++ [b]) a := by
  have visible : ∀ s ∈ p.machine.grammar.occurrences,
      s ∈ p.machine.grammar.symbols ∧ s.isEmpty = false ∧ s.isEndMark = false := fun s occurs =>
    ⟨Grammar.occurrences_subset_symbols occurs, Grammar.isEmpty_of_mem_occurrences occurs,
      avoids s (canonical.mem_symbols occurs)⟩
  have all : ∀ s ∈ string ++ [b], p.machine.grammar.IsKnown s := by
    intro s hs
    rcases List.mem_append.mp hs with hs | hs
    · exact .inl (visible s (occur s hs))
    · rw [List.mem_singleton.mp hs]
      rcases known with known | mark
      · exact .inl (visible b (Grammar.mem_terminals.mp known).1)
      · exact .inr mark
  have same : p.machine.grammar = g.prepare := canonical.prepared
  have kinds := canonical.machine.kinds
  rw [same] at mem all kinds ⊢
  have begins := @Grammar.begins_of_mem_ofString g.augment.numberRules kinds _ all _ mem
  rcases begins with ⟨empty, derives⟩ | ⟨visible, rest, derives⟩
  · exact .inl ⟨empty, Grammar.derives_computeFirst.mpr derives⟩
  · exact .inr ⟨visible, rest, Grammar.derives_computeFirst.mpr derives⟩

/-- What FIRST holds of a string with a lookahead behind it begins something that the string derives,
or it is the lookahead and the string derives the empty string. -/
theorem cases_of_mem_ofString {string : List Symbol} {b a : Symbol}
    (occur : ∀ s ∈ string, s ∈ p.machine.grammar.occurrences)
    (known : p.machine.grammar.IsLookahead b)
    (mem : a ∈ p.machine.grammar.firstTable.ofString (string ++ [b])) :
    (∃ v, p.machine.grammar.Derives string (a :: v)) ∨
      (a = b ∧ p.machine.grammar.Derives string []) := by
  have kind : ∀ s ∈ [b], s.isTerminal = true := List.forall_mem_singleton.mpr known.isTerminal
  rcases canonical.begins_of_mem_ofString avoids occur known mem with
    ⟨_, derives⟩ | ⟨_, rest, derives⟩
  · obtain ⟨w, empty, _⟩ := derives.of_append_terminals canonical.machine.lhs kind
    simp at empty
  · obtain ⟨w, same, front⟩ := derives.of_append_terminals canonical.machine.lhs kind
    cases w with
    | nil => exact .inr ⟨(List.cons_eq_cons.mp same).1, front⟩
    | cons t w =>
      obtain ⟨rfl, _⟩ := List.cons_eq_cons.mp same
      exact .inl ⟨w, front⟩

/-- What FIRST holds of a string with a lookahead behind it can be a lookahead itself. -/
theorem isLookahead_of_mem_ofString {string : List Symbol} {b a : Symbol}
    (occur : ∀ s ∈ string, s ∈ p.machine.grammar.occurrences)
    (known : p.machine.grammar.IsLookahead b)
    (mem : a ∈ p.machine.grammar.firstTable.ofString (string ++ [b])) :
    p.machine.grammar.IsLookahead a := by
  have kind := FirstTable.isTerminal_of_mem_ofString canonical.machine.holds mem
  rcases canonical.cases_of_mem_ofString avoids occur known mem with ⟨v, derives⟩ | ⟨rfl, _⟩
  · have occurs := derives.subset_occurrences (fun s mem => occur s mem) (List.mem_cons_self ..)
    exact .inl (Grammar.mem_terminals.mpr ⟨occurs, kind⟩)
  · exact known

/-- The lookahead of an item is a terminal of the grammar or the end mark. -/
theorem isLookahead_of_hasItem {id : Nat} {item : Item} (here : p.automaton.HasItem id item) :
    p.machine.grammar.IsLookahead item.lookahead := by
  refine canonical.machine.hasItem_induction
    (Q := fun item => p.machine.grammar.IsLookahead item.lookahead) (.inr rfl)
    (fun _ _ _ known _ => known) (fun item belongs known q predicted => ?_) here
  obtain ⟨B, rest, after, _, a, first, _, _, rfl⟩ := Item.mem_predictions.mp predicted
  exact canonical.isLookahead_of_mem_ofString avoids
    (Item.rest_subset_occurrences belongs.production after) known first

end Lookaheads

end CanonicalLR.Parser.Canonical
