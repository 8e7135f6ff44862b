import CanonicalLR.Grammar.Derivation
import CanonicalLR.Item
import CanonicalLR.Proofs.Grammar.Expansion
import CanonicalLR.Proofs.ItemSet.Closure

/-!
Valid items, the meaning of the states of a canonical automaton. An item is valid for a string of
symbols if some rightmost derivation has just this string before the dot, in its last step, and the
lookahead behind the right-hand side. In such a right sentential form the path is followed by what
stands after the dot and by a terminal string, whose first symbol is the lookahead; and an item that
stands in a form makes the items of the symbol after its dot stand in another one.
-/

set_option autoImplicit false
set_option relaxedAutoImplicit false

namespace CanonicalLR.Item

/-- The first symbol of a rest of the input, which has the end mark after it. -/
def lookaheadOf (rest : List Symbol) : Symbol := rest.headD .endMark

/-- The item `[A -> x · y, a]` is valid for `path` in a grammar with the start symbol `S` if `S`
derives `d A w` by a rightmost derivation, `A -> x y` is a production, `path` is `d x`, and `a` is
the first symbol of the terminal string `w` with the end mark after it. -/
def Valid (g : Grammar) (path : List Symbol) (item : Item) : Prop :=
  item.production ∈ g.productions ∧
    ∃ (productions : List Production) (left rest : List Symbol),
      g.RightmostDerives productions [g.start] (left ++ item.lhs :: rest) ∧
        (∀ s ∈ rest, s.isTerminal) ∧ path = left ++ item.before ∧
          item.lookahead = lookaheadOf rest

/-- An item stands at the end of a path in a right sentential form, with terminals behind it. -/
structure Stands (g : Grammar) (path : List Symbol) (item : Item) (behind : List Symbol) : Prop where
  production : item.production ∈ g.productions
  terminals : ∀ s ∈ behind, s.isTerminal = true
  form : ∃ productions left, g.RightmostDerives productions [g.start]
    (left ++ item.lhs :: behind) ∧ path = left ++ item.before

variable {g : Grammar} {path behind : List Symbol} {item : Item}

theorem valid_iff_stands : item.Valid g path ↔
    ∃ behind, item.Stands g path behind ∧ item.lookahead = lookaheadOf behind := by
  constructor
  · rintro ⟨mem, productions, left, behind, derives, terminals, path, lookahead⟩
    exact ⟨behind, ⟨mem, terminals, productions, left, derives, path⟩, lookahead⟩
  · rintro ⟨behind, ⟨mem, terminals, productions, left, derives, path⟩, lookahead⟩
    exact ⟨mem, productions, left, behind, derives, terminals, path, lookahead⟩

theorem lookaheadOf_append (front rest : List Symbol) :
    lookaheadOf (front ++ rest) = front.headD (lookaheadOf rest) := by
  cases front <;> rfl

namespace Stands

/-- The start symbol derives the path, then what is after the dot, then the terminals. -/
theorem rightmostDerives (stands : item.Stands g path behind) : ∃ productions,
    g.RightmostDerives productions [g.start] (path ++ item.after ++ behind) := by
  obtain ⟨productions, left, derives, rfl⟩ := stands.form
  have last : g.RightmostDerives [item.production] (left ++ item.lhs :: behind)
      (left ++ (item.before ++ item.after) ++ behind) :=
    .head stands.production stands.terminals (.refl _)
  refine ⟨productions ++ [item.production], ?_⟩
  simpa only [List.append_assoc] using derives.trans last

theorem advance {s : Symbol} {rest : List Symbol} (stands : item.Stands g path behind)
    (after : item.after = s :: rest) :
    Stands g (path ++ [s]) ⟨item.lhs, item.before ++ [s], rest, item.lookahead⟩ behind := by
  obtain ⟨productions, left, derives, rfl⟩ := stands.form
  refine ⟨?_, stands.terminals, productions, left, derives, by simp⟩
  have mem := stands.production
  simp only [Item.production, Item.rhs, after] at mem ⊢
  simpa using mem

/-- The items of the symbol after the dot stand where what follows it has been derived. -/
theorem predicts (stands : item.Stands g path behind) {production : Production}
    (mem : production ∈ g.productions) {rest w : List Symbol}
    (after : item.after = production.lhs :: rest) (derives : g.Derives rest w)
    (terminals : ∀ s ∈ w, s.isTerminal = true) (lookahead : Symbol) :
    Stands g path (.initial production.lhs production.rhs lookahead) (w ++ behind) := by
  obtain ⟨productions, form⟩ := stands.rightmostDerives
  obtain ⟨expansion, expands⟩ := derives.exists_expands terminals
  have next := expands.rightmostDerives.append (path ++ [production.lhs]) stands.terminals
  rw [after, List.append_cons path production.lhs rest] at form
  have whole := form.trans next
  rw [List.append_assoc, List.append_assoc] at whole
  exact ⟨mem, fun s hs => (List.mem_append.mp hs).elim (terminals s) (stands.terminals s),
    _, path, whole, (List.append_nil path).symm⟩

end Stands

end CanonicalLR.Item
