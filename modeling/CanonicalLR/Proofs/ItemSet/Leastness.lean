import CanonicalLR.Proofs.ItemSet.Closure

/-!
The closure of an item set is the least closed set around it. The symbols of the productions and of
the items are taken from a stock in which no name has both kinds. Items of the stock that compare
equal then differ in the kind of their lookahead at most, and no prediction depends on that
(`predictions_of_compare`); so what the closure holds has been predicted in every closed set around
the start, whichever of the equal items that set holds. The laws of a closure operator follow.
-/

set_option autoImplicit false
set_option relaxedAutoImplicit false

namespace CanonicalLR

variable {g : Grammar} {P : Symbol → Prop}

namespace Item

/-- Items over one stock of symbols that compare equal predict the same items. -/
theorem predictions_of_compare (apart : Distinguishes P) {a b : Item} (left : a.production.Over P)
    (right : b.production.Over P) (same : compare a b = .eq) :
    a.predictions g = b.predictions g := by
  obtain ⟨heads, bodies, dots, lookaheads⟩ := compare_eq_iff.mp same
  have productions : b.production = a.production :=
    (Production.distinguishes_over apart _ _ left right
      (Production.compare_eq_iff.mpr ⟨heads, bodies⟩)).symm
  have cores : b = ⟨a.lhs, a.before, a.after, b.lookahead⟩ := ext_parts productions dots.symm rfl
  rw [cores]
  obtain ⟨lhs, before, after, lookahead⟩ := a
  cases after with
  | nil => rfl
  | cons B rest =>
    have names : (rest ++ [lookahead]).map Symbol.name =
        (rest ++ [b.lookahead]).map Symbol.name := by simpa using lookaheads
    have strings : g.first (expected ⟨lhs, before, B :: rest, lookahead⟩ 1) =
        g.first (expected ⟨lhs, before, B :: rest, b.lookahead⟩ 1) := by
      simpa [Grammar.first, expected] using g.firstTable.ofString_congr_names names
    unfold predictions
    rw [strings]
    rfl

/-- Predictions stay within a stock that the productions are taken from. -/
theorem over_of_mem_predictions (productions : ∀ production ∈ g.productions, production.Over P)
    {item q : Item} (known : item.production.Over P) (h : q ∈ item.predictions g) :
    q.production.Over P := by
  obtain ⟨B, rest, after, _, _, _, rhs, listed, rfl⟩ := mem_predictions.mp h
  obtain ⟨production, mem, _, rfl⟩ := Grammar.mem_alternatives.mp listed
  have next : B ∈ item.rhs := by simp [Item.rhs, after]
  exact ⟨known.2 B next, (productions production mem).2⟩

end Item

namespace ItemSet

/-- The items of two sets; of items that compare equal, that of the first set. -/
def union (set other : ItemSet) : ItemSet := set.insertAll other.toList

/-- What a set holds another one holds too. -/
def PartOf (set other : ItemSet) : Prop := ∀ item ∈ set, other.contains item = true

/-- A set is closed when for every item with a non-terminal `B` after its dot it holds the items
`[B -> · y, b]`, for each production `B -> y` and each `b` in FIRST of what is expected after `B`. -/
def IsClosed (g : Grammar) (set : ItemSet) : Prop :=
  ∀ item ∈ set, ∀ B rest, item.after = B :: rest → B.isNonTerminal = true →
    ∀ production ∈ g.productions, production.lhs == B →
      ∀ b ∈ g.first (rest ++ [item.lookahead]), set.contains (.initial B production.rhs b) = true

/-- The least closed set around another one, among the sets of items over a stock of symbols. -/
structure IsLeastClosed (g : Grammar) (P : Symbol → Prop) (set least : ItemSet) : Prop where
  known : ∀ item ∈ least, item.production.Over P
  around : set.PartOf least
  closed : IsClosed g least
  below : ∀ other : ItemSet, (∀ item ∈ other, item.production.Over P) → set.PartOf other →
    IsClosed g other → least.PartOf other

theorem PartOf.contains {set other : ItemSet} (part : set.PartOf other) {item : Item}
    (h : set.contains item = true) : other.contains item = true := by
  obtain ⟨here, mem, same⟩ := OrderedSet.contains_iff.mp h
  obtain ⟨there, mem', same'⟩ := OrderedSet.contains_iff.mp (part here mem)
  exact OrderedSet.contains_iff.mpr ⟨there, mem', Std.TransCmp.eq_trans same same'⟩

theorem PartOf.trans {first second third : ItemSet} (left : first.PartOf second)
    (right : second.PartOf third) : first.PartOf third := fun item mem =>
  right.contains (left item mem)

theorem partOf_union_left (set other : ItemSet) : set.PartOf (set.union other) :=
  fun _ mem => OrderedSet.contains_of_mem (OrderedSet.mem_insertAll_of_mem mem)

theorem partOf_union_right (set other : ItemSet) : other.PartOf (set.union other) :=
  fun item mem => OrderedSet.contains_insertAll.mpr (.inr ⟨item, mem, Std.ReflCmp.compare_self⟩)

theorem PartOf.union {set other whole : ItemSet} (left : set.PartOf whole)
    (right : other.PartOf whole) : (set.union other).PartOf whole := fun item mem =>
  (OrderedSet.mem_or_mem_of_mem_insertAll mem).elim (left item) (right item)

theorem partOf_closure (set : ItemSet) : set.PartOf (set.closure g) := fun _ mem =>
  OrderedSet.contains_of_mem (mem_closure_of_mem mem)

theorem isClosed_iff {set : ItemSet} :
    IsClosed g set ↔ ∀ item ∈ set, ∀ q ∈ item.predictions g, set.contains q = true := by
  have strings : ∀ (rest : List Symbol) (a : Symbol),
      g.first (rest ++ [a]) = g.firstTable.ofString (rest ++ [a]) := by simp [Grammar.first]
  constructor
  · intro closed item mem q predicted
    obtain ⟨B, rest, after, kind, b, hb, rhs, listed, rfl⟩ := Item.mem_predictions.mp predicted
    obtain ⟨production, here, name, rfl⟩ := Grammar.mem_alternatives.mp listed
    exact closed item mem B rest after kind production here (Symbol.beq_iff_name_eq.mpr name) b
      (by rwa [strings])
  · intro holds item mem B rest after kind production here same b hb
    refine holds item mem _ (Item.mem_predictions.mpr ⟨B, rest, after, kind, b, ?_, production.rhs,
      Grammar.mem_alternatives.mpr ⟨production, here, Symbol.beq_iff_name_eq.mp same, rfl⟩, rfl⟩)
    rwa [← strings]

/-- The closure is what some number of rounds makes of the set, and one more changes nothing. -/
theorem closure_eq_iterate (set : ItemSet) : (∃ rounds : Nat,
    set.closure g = (predict g)^[rounds] set) ∧ predict g (set.closure g) = set.closure g := by
  refine ⟨?_, predict_closure set⟩
  refine settle_induction (P := fun s : ItemSet => ∃ rounds : Nat, s = (predict g)^[rounds] set)
    ?_ ⟨0, rfl⟩ _
  rintro _ ⟨rounds, rfl⟩
  exact ⟨rounds + 1, (Function.iterate_succ_apply' ..).symm⟩

/-- A closure is its own closure. -/
theorem closure_closure (set : ItemSet) : (set.closure g).closure g = set.closure g := by
  have settled : (predict g (set.closure g) == set.closure g) = true := by
    rw [predict_closure, beq_self_eq_true]
  rw [closure, settle, if_pos settled]

section Stock

variable (apart : Distinguishes P)
  (productions : ∀ production ∈ g.productions, production.Over P)
include productions

theorem over_closure {set : ItemSet} (known : ∀ item ∈ set, item.production.Over P) :
    ∀ item ∈ set.closure g, item.production.Over P :=
  closure_induction known fun _ here _ predicted =>
    Item.over_of_mem_predictions productions here predicted

include apart

/-- A closed set around another one holds all of its closure. -/
theorem closure_partOf {set other : ItemSet} (known : ∀ item ∈ set, item.production.Over P)
    (known' : ∀ item ∈ other, item.production.Over P) (part : set.PartOf other)
    (closed : IsClosed g other) : (set.closure g).PartOf other := by
  have both : ∀ item ∈ set.closure g,
      item.production.Over P ∧ other.contains item = true := by
    refine closure_induction (fun item mem => ⟨known item mem, part item mem⟩) ?_
    intro item ⟨here, held⟩ q predicted
    refine ⟨Item.over_of_mem_predictions productions here predicted, ?_⟩
    obtain ⟨equal, mem, same⟩ := OrderedSet.contains_iff.mp held
    rw [Item.predictions_of_compare apart here (known' equal mem) same] at predicted
    exact isClosed_iff.mp closed equal mem q predicted
  exact fun item mem => (both item mem).2

theorem isLeastClosed_closure {set : ItemSet} (known : ∀ item ∈ set, item.production.Over P) :
    IsLeastClosed g P set (set.closure g) where
  known := over_closure productions known
  around := partOf_closure set
  closed := isClosed_iff.mpr fun _ mem _ predicted => contains_closure_of_predictions mem predicted
  below _ known' part closed := closure_partOf apart productions known known' part closed

/-- A larger set has a larger closure. -/
theorem PartOf.closure {set other : ItemSet} (known : ∀ item ∈ set, item.production.Over P)
    (known' : ∀ item ∈ other, item.production.Over P) (part : set.PartOf other) :
    (set.closure g).PartOf (other.closure g) :=
  closure_partOf apart productions known (over_closure productions known')
    (part.trans (partOf_closure other)) (isLeastClosed_closure apart productions known').closed

/-- A union has the closure of the union of the closures. -/
theorem closure_union {set other : ItemSet} (known : ∀ item ∈ set, item.production.Over P)
    (known' : ∀ item ∈ other, item.production.Over P) :
    (set.union other).closure g ==
      ((set.closure g).union (other.closure g)).closure g := by
  have union : ∀ {s t : ItemSet}, (∀ item ∈ s, item.production.Over P) →
      (∀ item ∈ t, item.production.Over P) →
      ∀ item ∈ s.union t, item.production.Over P := fun left right item mem =>
    (OrderedSet.mem_or_mem_of_mem_insertAll mem).elim (left item) (right item)
  have whole := union known known'
  have closures := union (over_closure productions known) (over_closure productions known')
  refine OrderedSet.beq_of_contains ?_ ?_
  · refine PartOf.closure apart productions whole closures (PartOf.union ?_ ?_)
    · exact (partOf_closure set).trans (partOf_union_left _ _)
    · exact (partOf_closure other).trans (partOf_union_right _ _)
  · refine closure_partOf apart productions closures (over_closure productions whole)
      (PartOf.union ?_ ?_) (isLeastClosed_closure apart productions whole).closed
    · exact PartOf.closure apart productions known whole (partOf_union_left _ _)
    · exact PartOf.closure apart productions known' whole (partOf_union_right _ _)

/-- Closure is the least closed set. Whatever FIRST table a grammar holds, the rounds come to their
end with the least closed set around the items there were; so closing is idempotent, monotone, and
the same after a union as after the union of the closures. -/
theorem closure_laws :
    (∀ set : ItemSet, (∀ item ∈ set, item.production.Over P) →
      ((∃ rounds : Nat, set.closure g = (predict g)^[rounds] set) ∧
        predict g (set.closure g) = set.closure g) ∧
      IsLeastClosed g P set (set.closure g) ∧
      (set.closure g).closure g = set.closure g) ∧
    ∀ set other : ItemSet, (∀ item ∈ set, item.production.Over P) →
      (∀ item ∈ other, item.production.Over P) →
      (set.PartOf other → (set.closure g).PartOf (other.closure g)) ∧
      (set.union other).closure g ==
        ((set.closure g).union (other.closure g)).closure g := by
  constructor
  · intro set known
    exact ⟨closure_eq_iterate set, isLeastClosed_closure apart productions known,
      closure_closure set⟩
  · intro set other known known'
    exact ⟨PartOf.closure apart productions known known',
      closure_union apart productions known known'⟩

end Stock

/-- Left recursion, with a non-terminal that has no productions and so an empty FIRST set. -/
def repeating : Grammar :=
  ((Grammar.ofStart (.nonTerminal "S")).pushAll (.nonTerminal "S")
    [[.nonTerminal "S", .nonTerminal "U"], [.nonTerminal "S", .terminal "a"], []]).computeFirst

/-- What stands before `U` predicts nothing, as nothing is in FIRST of what follows it; what stands
before `a` predicts itself and each of the other productions. -/
theorem closure_laws_repeating :
    let S : Symbol := .nonTerminal "S"
    let stuck : ItemSet := .singleton (.initial S [S, .nonTerminal "U"] .endMark)
    let moving : ItemSet := .singleton (.initial S [S, .terminal "a"] .endMark)
    Distinguishes (· ∈ repeating.symbols) ∧
    (∀ production ∈ repeating.productions, production.Over (· ∈ repeating.symbols)) ∧
    (∀ item ∈ stuck, item.production.Over (· ∈ repeating.symbols)) ∧
    (∀ item ∈ moving, item.production.Over (· ∈ repeating.symbols)) ∧
    (stuck.closure repeating).size = 1 ∧ (moving.closure repeating).size = 4 ∧
    IsLeastClosed repeating (· ∈ repeating.symbols) moving (moving.closure repeating) ∧
    (stuck.union moving).closure repeating ==
      ((stuck.closure repeating).union (moving.closure repeating)).closure repeating := by
  intro S stuck moving
  have kinds : repeating.OneKindPerName := by decide +kernel
  have apart : Distinguishes (· ∈ repeating.symbols) := kinds.distinguishes
  have productions : ∀ production ∈ repeating.productions,
      production.Over (· ∈ repeating.symbols) := fun _ mem => Grammar.over_symbols mem
  have left : ∀ item ∈ stuck, item.production.Over (· ∈ repeating.symbols) := fun item mem => by
    rw [OrderedSet.mem_singleton.mp mem]
    exact productions _ (by decide +kernel)
  have right : ∀ item ∈ moving, item.production.Over (· ∈ repeating.symbols) := fun item mem => by
    rw [OrderedSet.mem_singleton.mp mem]
    exact productions _ (by decide +kernel)
  obtain ⟨single, pair⟩ := closure_laws apart productions
  exact ⟨apart, productions, left, right, by decide +kernel, by decide +kernel,
    (single moving right).2.1, (pair stuck moving left right).2⟩

end ItemSet

end CanonicalLR
