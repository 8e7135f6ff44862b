import CanonicalLR.Proofs.Grammar.Expansion
import CanonicalLR.Proofs.Grammar.First
import CanonicalLR.Proofs.Item.Validity
import CanonicalLR.Proofs.Machine.Walks

/-!
Lookaheads in a machine whose grammar has had its FIRST sets computed. What stands behind a non-terminal
in a derivation is expected there by the items, too: along a rightmost derivation of any form the
productions of a non-terminal are in the state that the symbols before it lead to, with the symbol
behind it as lookahead. The start symbol may stand in right-hand sides.
-/

set_option autoImplicit false
set_option relaxedAutoImplicit false

namespace CanonicalLR.Machine.Canonical

variable {m : Machine} {goal : Symbol} {a : Automaton} (canonical : m.Canonical goal a)
include canonical

/-- The start symbol is a non-terminal, as it has a production. -/
theorem isNonTerminal_start : m.grammar.start.isNonTerminal = true :=
  canonical.lhs _ canonical.belongs_startItem.production

/-- The terminals among the symbols of the grammar stand in right-hand sides. -/
theorem mem_terminals {s : Symbol} (mem : s ∈ m.grammar.symbols) (kind : s.isTerminal = true) :
    s ∈ m.grammar.terminals := by
  refine Grammar.mem_terminals.mpr ⟨?_, kind⟩
  rw [Symbol.isTerminal_eq_not] at kind
  rcases List.mem_cons.mp mem with rfl | mem
  · simp [canonical.isNonTerminal_start] at kind
  · rcases List.mem_append.mp mem with mem | mem
    · obtain ⟨production, here, rfl⟩ := List.mem_map.mp mem
      simp [canonical.lhs production here] at kind
    · exact mem

/-- An item predicts the productions of the symbol after its dot, with all that FIRST finds behind it
as lookaheads. -/
theorem hasItem_of_mem_ofString {id : Nat} {item : Item} (here : a.HasItem id item)
    {production : Production} (mem : production ∈ m.grammar.productions) {rest : List Symbol}
    (after : item.after = production.lhs :: rest) {b : Symbol}
    (first : b ∈ m.grammar.firstTable.ofString (rest ++ [item.lookahead])) :
    a.HasItem id (.initial production.lhs production.rhs b) := by
  refine canonical.closed here (Item.mem_predictions.mpr
    ⟨_, rest, after, canonical.lhs production mem, b, first, _, ?_, rfl⟩)
  exact (Grammar.mem_alternatives_iff canonical.kinds (Grammar.lhs_mem_symbols mem)).mpr mem

section Computed

variable {base : Grammar} (computed : m.grammar = base.computeFirst)
include computed

/-- FIRST of a string that begins with a terminal holds the terminal. -/
theorem mem_ofString_cons {t : Symbol} (known : m.grammar.IsLookahead t) (string : List Symbol) :
    t ∈ m.grammar.firstTable.ofString (t :: string) := by
  have lhs := canonical.lhs
  have kinds := canonical.kinds
  rw [computed] at known lhs kinds ⊢
  have before : base.IsLookahead t := known
  exact Grammar.mem_ofString_terminal lhs kinds before string

variable (avoids : m.grammar.AvoidsEndMark)
include avoids

/-- What FIRST holds of a derived string it holds of the string. -/
theorem mem_ofString_of_derives {u v : List Symbol} (derives : m.grammar.Derives u v) {b : Symbol}
    (mem : b ∈ m.grammar.firstTable.ofString v) : b ∈ m.grammar.firstTable.ofString u := by
  have lhs := canonical.lhs
  have kinds := canonical.kinds
  rw [computed] at derives mem lhs kinds avoids ⊢
  -- the FIRST sets are those of the grammar before they were computed, which has the same symbols
  have clean : base.AvoidsEndMark := avoids
  exact Grammar.mem_ofString_of_derives lhs kinds clean.endMarkIsTerminal
    (Grammar.derives_computeFirst.mp derives) mem

/-- The first symbol of what can be derived from a string and of what stands behind it is in FIRST of
the string with anything behind it that can begin in the same way. -/
private theorem lookaheadOf_mem_ofString {rest behind w tail : List Symbol}
    (inside : ∀ s ∈ rest, s ∈ m.grammar.symbols) (derives : m.grammar.Derives rest w)
    (terminals : ∀ s ∈ w, s.isTerminal = true)
    (first : Item.lookaheadOf tail ∈ m.grammar.firstTable.ofString behind)
    (known : m.grammar.IsLookahead (Item.lookaheadOf tail)) :
    Item.lookaheadOf (w ++ tail) ∈ m.grammar.firstTable.ofString (rest ++ behind) ∧
      m.grammar.IsLookahead (Item.lookaheadOf (w ++ tail)) := by
  have string : m.grammar.Derives (rest ++ behind) (w ++ behind) := derives.concat .refl
  cases w with
  | nil => exact ⟨canonical.mem_ofString_of_derives computed avoids string first, known⟩
  | cons t w =>
    have terminal : m.grammar.IsLookahead t :=
      .inl (canonical.mem_terminals (derives.subset_symbols inside t (List.mem_cons_self ..))
        (terminals t (List.mem_cons_self ..)))
    exact ⟨canonical.mem_ofString_of_derives computed avoids string
      (canonical.mem_ofString_cons computed terminal _), terminal⟩

/-- An item predicts the productions of the symbol after its dot, with the first symbol of what can
be derived behind it as lookahead. -/
theorem hasItem_of_derives {id : Nat} {item : Item} (here : a.HasItem id item)
    {production : Production} (mem : production ∈ m.grammar.productions)
    {rest behind : List Symbol} (after : item.after = production.lhs :: (rest ++ behind))
    {w tail : List Symbol} (derives : m.grammar.Derives rest w)
    (terminals : ∀ s ∈ w, s.isTerminal = true)
    (first : Item.lookaheadOf tail ∈
      m.grammar.firstTable.ofString (behind ++ [item.lookahead]))
    (known : m.grammar.IsLookahead (Item.lookaheadOf tail)) :
    a.HasItem id (.initial production.lhs production.rhs (Item.lookaheadOf (w ++ tail))) ∧
      m.grammar.IsLookahead (Item.lookaheadOf (w ++ tail)) := by
  have inside : ∀ s ∈ rest, s ∈ m.grammar.symbols := fun s hs => by
    refine Grammar.rhs_subset_symbols (canonical.belongs here).production ?_
    change s ∈ item.before ++ item.after
    rw [after]
    exact List.mem_append_right _ (List.mem_cons_of_mem _ (List.mem_append_left _ hs))
  obtain ⟨found, later⟩ :=
    canonical.lookaheadOf_mem_ofString computed avoids inside derives terminals first known
  rw [← List.append_assoc] at found
  exact ⟨canonical.hasItem_of_mem_ofString here mem after found, later⟩

/-- Along a rightmost derivation the productions of a non-terminal are in the state that the symbols
before it lead to, with what stands behind it as lookahead. -/
theorem exists_hasItem_of_rightmostDerives {production : Production}
    (mem : production ∈ m.grammar.productions) {productions : List Production}
    {left behind : List Symbol} (terminals : ∀ s ∈ behind, s.isTerminal = true)
    (derives : m.grammar.RightmostDerives productions [m.grammar.start]
      (left ++ production.lhs :: behind)) :
    ∃ id, a.walk? 0 left = some id ∧
      a.HasItem id (.initial production.lhs production.rhs (Item.lookaheadOf behind)) ∧
      m.grammar.IsLookahead (Item.lookaheadOf behind) := by
  -- by induction on the length of the derivation, for all productions at once
  generalize length : productions.length = n
  induction n using Nat.strongRecOn generalizing production productions left behind with
  | ind n ih =>
    subst length
    rcases derives.ancestry (canonical.lhs production mem) with
      ⟨rfl, start, rfl⟩ |
      ⟨earlier, parent, outer, before, after, tail, less, form, here, ends, rhs, rfl, below⟩
    · have mark : m.grammar.IsLookahead .endMark := .inr rfl
      rw [start, canonical.rhs_of_start mem start]
      exact ⟨0, rfl, canonical.hasItem_startItem, mark⟩
    · obtain ⟨id, walk, item, known⟩ := ih _ less here ends form rfl
      rw [rhs] at item
      obtain ⟨target, walk', expects⟩ := canonical.exists_walk?_of_hasItem item
      obtain ⟨w, rfl, derived⟩ := below.of_append_terminals canonical.lhs ends
      rw [← List.append_nil after] at expects
      obtain ⟨predicted, known'⟩ := canonical.hasItem_of_derives computed avoids expects mem rfl
        derived (fun s hs => terminals s (List.mem_append_left _ hs))
        (canonical.mem_ofString_cons computed known []) known
      exact ⟨target, (Automaton.walk?_append walk before).trans walk', predicted, known'⟩

end Computed

end CanonicalLR.Machine.Canonical
