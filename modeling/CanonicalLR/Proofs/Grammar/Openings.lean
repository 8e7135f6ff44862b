import CanonicalLR.Grammar.Derivation
import CanonicalLR.Proofs.Grammar.Expansion
import CanonicalLR.Proofs.Grammar.Preparation
import Mathlib.Logic.Relation

/-!
Offers of a string are beginnings of what it derives, and where every non-terminal derives a terminal
string the converse holds: such a grammar offers whatever a string can begin with. Preparing a grammar
adds nothing that its symbols wrap.
-/

set_option autoImplicit false
set_option relaxedAutoImplicit false

namespace CanonicalLR.Grammar

variable {g : Grammar}

/-- Of an opening string the first part opens. -/
theorem Opens.of_append {u x : List Symbol} (opens : g.Opens (u ++ x)) : g.Opens u := by
  rcases opens with vanishes | ⟨a, v, kind, begins⟩
  · obtain ⟨w, y, nothing, first, _⟩ := vanishes.split
    obtain ⟨rfl, _⟩ := List.append_eq_nil_iff.mp nothing.symm
    exact .inl first
  · obtain ⟨w, y, same, first, _⟩ := begins.split
    cases w with
    | nil => exact .inl first
    | cons t w =>
      obtain ⟨rfl, _⟩ := List.cons_eq_cons.mp same
      exact .inr ⟨a, w, kind, first⟩

/-- Where non-terminals derive terminal strings, every string opens. -/
theorem Productive.opens (productive : g.Productive) {u : List Symbol}
    (inside : ∀ s ∈ u, s ∈ g.symbols) : g.Opens u := by
  obtain ⟨w, terminals, derives⟩ := productive.exists_derives fun s hs _ => inside s hs
  cases w with
  | nil => exact .inl derives
  | cons a w => exact .inr ⟨a, w, terminals a (List.mem_cons_self ..), derives⟩

namespace Offers

variable {a : Symbol}

/-- A string begins with what it offers. -/
theorem exists_derives {u : List Symbol} (offers : g.Offers a u) : ∃ v, g.Derives u (a :: v) := by
  induction offers with
  | here rest => exact ⟨rest, .refl⟩
  | @inside production rest mem _ _ ih =>
    obtain ⟨v, derives⟩ := ih
    exact ⟨v ++ rest, ((Derives.of_mem mem).trans derives).concat .refl⟩
  | behind vanishes _ ih =>
    obtain ⟨v, derives⟩ := ih
    exact ⟨v, vanishes.concat derives⟩

/-- What two strings offer together, the first one offers, or it can vanish and the second one offers
it. -/
theorem split {u x : List Symbol} (offers : g.Offers a (u ++ x)) :
    g.Offers a u ∨ (g.Derives u [] ∧ g.Offers a x) := by
  induction u with
  | nil => exact .inr ⟨.refl, offers⟩
  | cons s u ih =>
    generalize whole : s :: u ++ x = string at offers
    cases offers with
    | here rest =>
      obtain ⟨rfl, _⟩ := List.cons_eq_cons.mp whole
      exact .inl (.here u)
    | inside mem body opens =>
      obtain ⟨rfl, rfl⟩ := List.cons_eq_cons.mp whole
      exact .inl (.inside mem body opens.of_append)
    | behind vanishes later =>
      obtain ⟨rfl, rfl⟩ := List.cons_eq_cons.mp whole
      rcases ih later with first | ⟨empty, second⟩
      · exact .inl (.behind vanishes first)
      · exact .inr ⟨vanishes.concat empty, second⟩

/-- Undoing a step of a derivation keeps the offers where everything opens. -/
private theorem of_produces (productive : g.Productive) {u v : List Symbol}
    (step : g.Produces u v) (inside : ∀ s ∈ u, s ∈ g.symbols) (offers : g.Offers a v) :
    g.Offers a u := by
  cases step with
  | @replace production mem left right =>
    rw [List.append_assoc] at offers
    induction left with
    | nil =>
      have opens : g.Opens right := productive.opens fun s hs => inside s (by simp [hs])
      rw [List.nil_append] at offers
      rcases offers.split with body | ⟨empty, later⟩
      · exact .inside mem body opens
      · exact .behind ((Derives.of_mem mem).trans empty) later
    | cons s left ih =>
      have inner : ∀ t ∈ left ++ production.lhs :: right, t ∈ g.symbols :=
        (List.forall_mem_cons.mp inside).2
      generalize whole : s :: left ++ (production.rhs ++ right) = string at offers
      cases offers with
      | here rest =>
        obtain ⟨rfl, _⟩ := List.cons_eq_cons.mp whole
        exact .here _
      | inside here body _ =>
        obtain ⟨rfl, _⟩ := List.cons_eq_cons.mp whole
        exact .inside here body (productive.opens inner)
      | behind vanishes later =>
        obtain ⟨rfl, rfl⟩ := List.cons_eq_cons.mp whole
        exact .behind vanishes (ih inner later)

/-- Where every non-terminal derives a terminal string, a string offers what it begins with. -/
theorem of_derives (productive : g.Productive) {u v : List Symbol} (derives : g.Derives u (a :: v))
    (inside : ∀ s ∈ u, s ∈ g.symbols) : g.Offers a u := by
  have back : ∀ w, g.Derives u w → g.Offers a w → g.Offers a u := by
    intro w derives
    induction derives with
    | refl => exact id
    | tail before step ih =>
      exact fun offers => ih (of_produces productive step (before.subset_symbols inside) offers)
  exact back _ derives (.here v)

end Offers

/-- What a symbol of the grammar wraps in the prepared grammar it wraps in the grammar. -/
theorem Wraps.of_prepare (named : g.start.isEmpty = false) {s t : Symbol}
    (wraps : g.prepare.Wraps s t) (mem : s ∈ g.symbols) : g.Wraps s t ∧ t ∈ g.symbols := by
  obtain ⟨production, known, rfl, rest, body, vanishes⟩ := wraps
  rcases (mem_productions_prepare named).mp known with rfl | old
  · exact absurd rfl (name_ne_freshStart mem)
  · have inside : ∀ u ∈ t :: rest, u ∈ g.symbols := fun u hu =>
      rhs_subset_symbols old (body ▸ hu)
    obtain ⟨first, later⟩ := List.forall_mem_cons.mp inside
    exact ⟨⟨production, old, rfl, rest, body, vanishes.of_prepare named later⟩, first⟩

/-- Where right-hand sides begin with symbols of greater rank, no symbol wraps itself. -/
theorem not_wraps_self (rank : Symbol → Nat)
    (rises : ∀ production ∈ g.productions, ∀ t ∈ production.rhs.head?,
      rank production.lhs < rank t) (s : Symbol) : ¬ Relation.TransGen g.Wraps s s := by
  intro cycle
  have climbs : Relation.TransGen (· < ·) (rank s) (rank s) := by
    refine cycle.lift rank ?_
    rintro _ t ⟨production, mem, rfl, rest, body, _⟩
    exact rises production mem t (by simp [body])
  rw [Relation.transGen_eq_self] at climbs
  exact Nat.lt_irrefl _ climbs

end CanonicalLR.Grammar
