import CanonicalLR.ItemSet
import CanonicalLR.Proofs.Grammar.FirstTable

/-!
Closure and transition of item sets. What a property holds of at first, and is kept by predictions,
it holds of in the closure (`closure_induction`); and enough rounds are made for the closure to
contain all that its items predict (`contains_closure_of_predictions`).
-/

set_option autoImplicit false
set_option relaxedAutoImplicit false

namespace CanonicalLR

namespace Item

private theorem compare_append {a b c d : List Symbol} (lengths : a.length = c.length) :
    compare (a ++ b) (c ++ d) = .eq ↔ compare a c = .eq ∧ compare b d = .eq := by
  induction a generalizing c with
  | nil =>
    obtain rfl : c = [] := List.length_eq_zero_iff.mp lengths.symm
    simp [Std.ReflCmp.compare_self]
  | cons s a ih =>
    cases c with
    | nil => cases lengths
    | cons t c =>
      simp only [List.cons_append, List.compare_cons_cons, Ordering.then_eq_eq]
      rw [ih (Nat.succ.inj lengths), and_assoc]

theorem compare_eq_iff {a b : Item} : compare a b = .eq ↔ a.lhs.name = b.lhs.name ∧
    compare a.rhs b.rhs = .eq ∧ a.dot = b.dot ∧ a.lookahead.name = b.lookahead.name := by
  rw [← Symbol.compare_eq_iff_name_eq, ← Symbol.compare_eq_iff_name_eq,
    ← Std.LawfulEqOrd.compare_eq_iff_eq (a := a.dot)]
  change compareLex (compareOn lhs) (compareLex (compareOn rhs)
    (compareLex (compareOn dot) (compareOn lookahead))) a b = .eq ↔ _
  rw [compareLex_eq_eq, compareLex_eq_eq, compareLex_eq_eq]
  exact Iff.rfl

/-- Items in order have their productions in order. -/
theorem compare_production_ne_gt {a b : Item} (lt : compare a b = .lt) :
    compare a.production b.production ≠ .gt := by
  intro gt
  have parts : compare a b = (compare a.production b.production).then
      ((compare a.dot b.dot).then (compare a.lookahead b.lookahead)) :=
    (Ordering.then_assoc ..).symm
  rw [parts, gt] at lt
  cases lt

instance : Std.LawfulBEqOrd Item where
  compare_eq_iff_beq {a b} := by
    have parts : (a == b) = true ↔ (a.lhs == b.lhs) = true ∧ (a.before == b.before) = true ∧
        (a.after == b.after) = true ∧ (a.lookahead == b.lookahead) = true := by
      rw [← Bool.and_eq_true_iff, ← Bool.and_eq_true_iff, ← Bool.and_eq_true_iff]
      exact Iff.rfl
    rw [compare_eq_iff, parts, Symbol.beq_iff_name_eq, Symbol.beq_iff_name_eq,
      ← Std.LawfulBEqOrd.compare_eq_iff_beq, ← Std.LawfulBEqOrd.compare_eq_iff_beq]
    constructor
    · rintro ⟨heads, bodies, dots, lookaheads⟩
      obtain ⟨left, right⟩ := (compare_append dots).mp bodies
      exact ⟨heads, left, right, lookaheads⟩
    · rintro ⟨heads, left, right, lookaheads⟩
      have dots : a.before.length = b.before.length :=
        OrderedSet.length_eq_of_beq (Std.LawfulBEqOrd.compare_eq_iff_beq.mp left)
      exact ⟨heads, (compare_append dots).mpr ⟨left, right⟩, dots, lookaheads⟩

theorem ext_parts {a b : Item} (production : a.production = b.production) (dots : a.dot = b.dot)
    (lookaheads : a.lookahead = b.lookahead) : a = b := by
  obtain ⟨lhs, before, after, lookahead⟩ := a
  obtain ⟨lhs', before', after', lookahead'⟩ := b
  cases lookaheads
  obtain ⟨rfl, bodies⟩ := Production.mk.inj production
  obtain ⟨rfl, rfl⟩ := List.append_inj bodies dots
  rfl

/-- An item with a production of the grammar and a terminal, or the end mark, as lookahead. -/
structure Belongs (g : Grammar) (item : Item) : Prop where
  production : item.production ∈ g.productions
  lookahead : item.lookahead.isTerminal = true

theorem distinguishes_belongs {g : Grammar} (kinds : g.OneKindPerName) :
    Distinguishes (Belongs g) := by
  intro a b ha hb same
  obtain ⟨heads, bodies, dots, lookaheads⟩ := compare_eq_iff.mp same
  refine ext_parts ?_ dots (Symbol.distinguishes_terminal _ _ ha.lookahead hb.lookahead
    (Symbol.compare_eq_iff_name_eq.mpr lookaheads))
  exact Production.distinguishes_over kinds.distinguishes _ _ (Grammar.over_symbols ha.production)
    (Grammar.over_symbols hb.production) (Production.compare_eq_iff.mpr ⟨heads, bodies⟩)

/-- An item predicts where a non-terminal follows its dot: the alternatives of that symbol, with what
may follow it as lookaheads. -/
theorem mem_predictions {g : Grammar} {item q : Item} : q ∈ item.predictions g ↔
    ∃ B rest, item.after = B :: rest ∧ B.isNonTerminal = true ∧
      ∃ a ∈ g.firstTable.ofString (rest ++ [item.lookahead]),
        ∃ rhs ∈ g.alternatives B, q = .initial B rhs a := by
  obtain ⟨lhs, before, after, lookahead⟩ := item
  cases after with
  | nil => simp [predictions, next?]
  | cons B rest =>
    have string : g.first (expected ⟨lhs, before, B :: rest, lookahead⟩ 1) =
        g.firstTable.ofString (rest ++ [lookahead]) := by
      simp [Grammar.first, expected]
    unfold predictions
    rw [string]
    by_cases kind : B.isNonTerminal
    · simp only [next?, List.head?_cons, kind, if_true, List.mem_flatMap, List.mem_map,
        List.cons.injEq, OrderedSet.mem_def]
      constructor
      · rintro ⟨a, ha, rhs, hrhs, rfl⟩
        exact ⟨B, rest, ⟨rfl, rfl⟩, kind, a, ha, rhs, hrhs, rfl⟩
      · rintro ⟨_, _, ⟨rfl, rfl⟩, _, a, ha, rhs, hrhs, rfl⟩
        exact ⟨a, ha, rhs, hrhs, rfl⟩
    · simp only [next?, List.head?_cons, kind, List.cons.injEq]
      constructor
      · nofun
      · rintro ⟨_, _, ⟨rfl, rfl⟩, terminal, _⟩
        exact absurd terminal kind

theorem before_of_mem_predictions {g : Grammar} {item q : Item} (h : q ∈ item.predictions g) :
    q.before = [] := by
  obtain ⟨B, rest, _, _, a, _, rhs, _, rfl⟩ := mem_predictions.mp h
  rfl

theorem after_subset_occurrences {g : Grammar} {item : Item}
    (mem : item.production ∈ g.productions) : item.after ⊆ g.occurrences := fun _ hs =>
  Grammar.mem_occurrences.mpr ⟨_, mem, List.mem_append_right _ hs⟩

theorem next_mem_occurrences {g : Grammar} {item : Item}
    (mem : item.production ∈ g.productions) {B : Symbol} {rest : List Symbol}
    (after : item.after = B :: rest) : B ∈ g.occurrences := by
  refine after_subset_occurrences mem ?_
  rw [after]
  exact List.mem_cons_self ..

theorem rest_subset_occurrences {g : Grammar} {item : Item}
    (mem : item.production ∈ g.productions) {B : Symbol} {rest : List Symbol}
    (after : item.after = B :: rest) : rest ⊆ g.occurrences := fun s hs => by
  refine after_subset_occurrences mem ?_
  rw [after]
  exact List.mem_cons_of_mem _ hs

theorem Belongs.predictions {g : Grammar} (kinds : g.OneKindPerName)
    (holds : g.firstTable.HoldsTerminals) {item q : Item} (belongs : item.Belongs g)
    (h : q ∈ item.predictions g) : q.Belongs g := by
  obtain ⟨B, rest, after, _, a, ha, rhs, hrhs, rfl⟩ := mem_predictions.mp h
  have inside := Grammar.occurrences_subset_symbols (next_mem_occurrences belongs.production after)
  exact ⟨(Grammar.mem_alternatives_iff kinds inside).mp hrhs,
    FirstTable.isTerminal_of_mem_ofString holds ha⟩

/-- An item is advanced over the symbol after its dot, whatever the kind it is given in. -/
theorem advanceOver?_eq_some {item next : Item} {symbol : Symbol} :
    item.advanceOver? symbol = some next ↔ ∃ s rest, item.after = s :: rest ∧
      s.name = symbol.name ∧ next = ⟨item.lhs, item.before ++ [s], rest, item.lookahead⟩ := by
  obtain ⟨lhs, before, after, lookahead⟩ := item
  cases after with
  | nil => simp [advanceOver?, next?]
  | cons s rest =>
    by_cases same : s == symbol
    · have name := Symbol.beq_iff_name_eq.mp same
      simp only [advanceOver?, next?, List.head?_cons, Option.any_some, same, if_true, advance?,
        Option.some.injEq]
      constructor
      · rintro rfl
        exact ⟨s, rest, rfl, name, rfl⟩
      · rintro ⟨t, rest', list, _, rfl⟩
        obtain ⟨rfl, rfl⟩ := List.cons_eq_cons.mp list
        rfl
    · have name : s.name ≠ symbol.name := fun h => same (Symbol.beq_iff_name_eq.mpr h)
      simp only [advanceOver?, next?, List.head?_cons, Option.any_some, same]
      constructor
      · nofun
      · rintro ⟨t, rest', list, h, _⟩
        obtain ⟨rfl, rfl⟩ := List.cons_eq_cons.mp list
        exact absurd h name

theorem Belongs.advanceOver {g : Grammar} {item next : Item} {symbol : Symbol}
    (belongs : item.Belongs g) (h : item.advanceOver? symbol = some next) : next.Belongs g := by
  obtain ⟨s, rest, after, _, rfl⟩ := advanceOver?_eq_some.mp h
  refine ⟨?_, belongs.lookahead⟩
  have same : ⟨item.lhs, item.before ++ item.after⟩ ∈ g.productions := belongs.production
  rw [after] at same
  simpa [Item.production, Item.rhs] using same

end Item

namespace ItemSet

variable {g : Grammar}

def lookaheads (g : Grammar) : List Symbol :=
  (g.firstTable.toList.flatMap fun entry => entry.2.toList) ++ [.empty]

theorem length_lookaheads (g : Grammar) : (lookaheads g).length = lookaheadLimit g := by
  simp [lookaheads, lookaheadLimit]

theorem mem_lookaheads_of_mem_ofString {string : List Symbol} {a : Symbol}
    (h : a ∈ g.firstTable.ofString string) : a ∈ lookaheads g := by
  induction string with
  | nil => exact List.mem_append_right _ (List.mem_singleton.mpr (OrderedSet.mem_singleton.mp h))
  | cons s string ih =>
    unfold FirstTable.ofString at h
    split at h
    · cases h
    · next first found =>
      have inside : ∀ b ∈ first, b ∈ lookaheads g := fun b hb => by
        obtain ⟨k, entry, _⟩ := SymbolMap.exists_mem_of_find? found
        exact List.mem_append_left _ (List.mem_flatMap.mpr ⟨_, entry, hb⟩)
      dsimp only at h
      split at h
      · rcases OrderedSet.mem_or_mem_of_mem_insertAll h with h | h
        · exact inside a (OrderedSet.mem_filter.mp h).1
        · exact ih h
      · exact inside a (OrderedSet.mem_filter.mp h).1

/-- The items that can be predicted. -/
private def candidates (g : Grammar) : List Item :=
  g.productions.toList.flatMap fun production =>
    (lookaheads g).map (.initial production.lhs production.rhs)

private theorem length_candidates (g : Grammar) :
    (candidates g).length = g.productions.size * lookaheadLimit g := by
  simp [candidates, List.length_flatMap, length_lookaheads, OrderedSet.size]

private theorem covered_of_mem_predictions {item q : Item} (h : q ∈ item.predictions g) :
    ∃ c ∈ candidates g, compare q c = .eq := by
  obtain ⟨B, rest, _, _, a, ha, rhs, hrhs, rfl⟩ := Item.mem_predictions.mp h
  obtain ⟨production, mem, name, rfl⟩ := Grammar.mem_alternatives.mp hrhs
  refine ⟨.initial production.lhs production.rhs a, ?_, Item.compare_eq_iff.mpr
    ⟨name.symm, Std.ReflCmp.compare_self, rfl, rfl⟩⟩
  exact List.mem_flatMap.mpr ⟨production, mem,
    List.mem_map_of_mem (mem_lookaheads_of_mem_ofString ha)⟩

/-- What holds of the items of a set, and is kept by predictions, holds of the items of the
closure. -/
theorem closure_induction {Q : Item → Prop} {set : ItemSet} (start : ∀ item ∈ set, Q item)
    (keep : ∀ item, Q item → ∀ q ∈ item.predictions g, Q q) : ∀ item ∈ set.closure g, Q item := by
  refine settle_induction (P := fun s : ItemSet => ∀ item ∈ s, Q item) (fun s before q mem => ?_)
    start _
  rcases OrderedSet.mem_or_mem_of_mem_insertAll mem with old | new
  · exact before q old
  · obtain ⟨item, here, predicted⟩ := List.mem_flatMap.mp new
    exact keep item (before item here) q predicted

theorem mem_closure_of_mem {set : ItemSet} {item : Item} (h : item ∈ set) :
    item ∈ set.closure g :=
  settle_induction (P := fun s : ItemSet => item ∈ s) (fun _ => OrderedSet.mem_insertAll_of_mem) h _

/-- An item of the closure was there at first, or is predicted by an item of the closure. -/
theorem mem_or_predicted_of_mem_closure {set : ItemSet} {q : Item} (h : q ∈ set.closure g) :
    q ∈ set ∨ ∃ item ∈ set.closure g, q ∈ item.predictions g := by
  refine (settle_induction (P := fun s : ItemSet => (∀ q ∈ s, q ∈ set ∨
    ∃ item ∈ s, q ∈ item.predictions g)) (fun s before q mem => ?_) (fun q mem => .inl mem)
    (g.productions.size * lookaheadLimit g + 1)) q h
  rcases OrderedSet.mem_or_mem_of_mem_insertAll mem with old | new
  · exact (before q old).imp_right fun ⟨item, here, predicted⟩ =>
      ⟨item, OrderedSet.mem_insertAll_of_mem here, predicted⟩
  · obtain ⟨item, here, predicted⟩ := List.mem_flatMap.mp new
    exact .inr ⟨item, OrderedSet.mem_insertAll_of_mem here, predicted⟩

/-- One more round does not change a closure. -/
theorem predict_closure (set : ItemSet) : predict g (set.closure g) = set.closure g := by
  let P : ItemSet → Prop := fun s =>
    ∀ item ∈ s, ∃ c ∈ set.toList ++ candidates g, compare item c = .eq
  have keep : ∀ s, P s → P (predict g s) := by
    intro s before q mem
    rcases OrderedSet.mem_or_mem_of_mem_insertAll mem with old | new
    · exact before q old
    · obtain ⟨item, _, predicted⟩ := List.mem_flatMap.mp new
      obtain ⟨c, here, same⟩ := covered_of_mem_predictions predicted
      exact ⟨c, List.mem_append_right _ here, same⟩
  have raise : ∀ s : ItemSet, predict g s = s ∨ s.size < (predict g s).size :=
    fun s => s.insertAll_eq_or_size_lt _
  have bounded : ∀ s : ItemSet, P s →
      s.size ≤ set.size + g.productions.size * lookaheadLimit g := fun s covered => by
    have bound := OrderedSet.size_le_length covered
    rwa [List.length_append, length_candidates] at bound
  have settled : (predict g (set.closure g) == set.closure g) = true := by
    refine step_settle keep bounded (fun s _ changed => ?_)
      (fun item mem => ⟨item, List.mem_append_left _ mem, Std.ReflCmp.compare_self⟩) (by omega)
    rcases raise s with same | larger
    · rw [same, beq_self_eq_true] at changed
      cases changed
    · exact larger
  rcases raise (set.closure g) with same | larger
  · exact same
  · rw [OrderedSet.size_eq_of_beq settled] at larger
    exact absurd larger (Nat.lt_irrefl _)

/-- A closure contains what its items predict. -/
theorem contains_closure_of_predictions {set : ItemSet} {item q : Item}
    (mem : item ∈ set.closure g) (h : q ∈ item.predictions g) :
    (set.closure g).contains q = true :=
  OrderedSet.contains_of_insertAll_eq (predict_closure set) (List.mem_flatMap.mpr ⟨item, mem, h⟩)

/-- The next symbols of a set are, by name, the symbols after its dots. -/
theorem contains_nextSymbols {set : ItemSet} {s : Symbol} :
    set.nextSymbols.contains s = true ↔
      ∃ item ∈ set, ∃ t rest, item.after = t :: rest ∧ s.name = t.name := by
  have after : ∀ (item : Item) (t : Symbol),
      item.next? = some t ↔ ∃ rest, item.after = t :: rest := fun item t => List.head?_eq_some_iff
  simp only [nextSymbols, OrderedSet.contains_ofList, List.mem_filterMap, after,
    Symbol.compare_eq_iff_name_eq]
  constructor
  · rintro ⟨t, ⟨item, mem, rest, h⟩, name⟩
    exact ⟨item, mem, t, rest, h, name⟩
  · rintro ⟨item, mem, t, rest, h, name⟩
    exact ⟨t, ⟨item, mem, rest, h⟩, name⟩

theorem exists_item_of_mem_nextSymbols {set : ItemSet} {s : Symbol} (h : s ∈ set.nextSymbols) :
    ∃ item ∈ set, ∃ rest, item.after = s :: rest := by
  obtain ⟨item, mem, next⟩ := List.mem_filterMap.mp (OrderedSet.mem_of_mem_ofList h)
  exact ⟨item, mem, List.head?_eq_some_iff.mp next⟩

theorem mem_advanceOver {set : ItemSet} {symbol : Symbol} {next : Item}
    (h : next ∈ set.advanceOver symbol) : ∃ item ∈ set, item.advanceOver? symbol = some next := by
  rcases OrderedSet.mem_or_mem_of_mem_insertAll h with nothing | mem
  · cases nothing
  · exact List.mem_filterMap.mp mem

/-- The items past a symbol depend on its name only. -/
theorem goto_congr (set : ItemSet) {s t : Symbol} (name : s.name = t.name) :
    set.goto g s = set.goto g t := by
  have same : Item.advanceOver? s = Item.advanceOver? t := by
    funext item
    have next : (fun u : Symbol => u == s) = fun u => u == t := by
      funext u
      exact BEq.congr_right (Symbol.beq_iff_name_eq.mpr name)
    simp only [Item.advanceOver?, next]
  simp only [goto, advanceOver, same]

/-- Past a next symbol there is an item. -/
theorem exists_mem_goto {set : ItemSet} {symbol : Symbol} (h : symbol ∈ set.nextSymbols) :
    ∃ item, item ∈ set.goto g symbol := by
  obtain ⟨item, mem, rest, after⟩ := exists_item_of_mem_nextSymbols h
  have advanced := Item.advanceOver?_eq_some.mpr ⟨symbol, rest, after, rfl, rfl⟩
  have past : (set.advanceOver symbol).contains
      ⟨item.lhs, item.before ++ [symbol], rest, item.lookahead⟩ = true :=
    OrderedSet.contains_insertAll.mpr
      (.inr ⟨_, List.mem_filterMap.mpr ⟨item, mem, advanced⟩, Std.ReflCmp.compare_self⟩)
  obtain ⟨next, here, _⟩ := OrderedSet.contains_iff.mp past
  exact ⟨next, mem_closure_of_mem here⟩

/-- An item past a symbol is an advanced one, or is predicted by one past the symbol. -/
theorem advanced_or_predicted_of_mem_goto {set : ItemSet} {symbol : Symbol} {q : Item}
    (h : q ∈ set.goto g symbol) : (∃ item ∈ set, item.advanceOver? symbol = some q) ∨
      ∃ item ∈ set.goto g symbol, q ∈ item.predictions g :=
  (mem_or_predicted_of_mem_closure h).imp_left mem_advanceOver

section OneKind

variable (kinds : g.OneKindPerName) (holds : g.firstTable.HoldsTerminals)
include kinds holds

theorem belongs_closure {set : ItemSet} (inside : ∀ item ∈ set, item.Belongs g) :
    ∀ item ∈ set.closure g, item.Belongs g :=
  closure_induction inside fun _ belongs _ predicted => belongs.predictions kinds holds predicted

theorem belongs_goto {set : ItemSet} (inside : ∀ item ∈ set, item.Belongs g) (symbol : Symbol) :
    ∀ item ∈ set.goto g symbol, item.Belongs g := by
  refine belongs_closure kinds holds fun next mem => ?_
  obtain ⟨item, here, advanced⟩ := mem_advanceOver mem
  exact (inside item here).advanceOver advanced

/-- With one kind for every name, a closure holds what its items predict. -/
theorem mem_closure_of_predictions {set : ItemSet} (inside : ∀ item ∈ set, item.Belongs g)
    {item q : Item} (mem : item ∈ set.closure g) (h : q ∈ item.predictions g) :
    q ∈ set.closure g := by
  have belongs := belongs_closure kinds holds inside
  exact OrderedSet.mem_of_contains (Item.distinguishes_belongs kinds) belongs
    ((belongs item mem).predictions kinds holds h) (contains_closure_of_predictions mem h)

omit holds in
/-- With one kind for every name, a transition takes every item along that has the symbol next. -/
theorem mem_goto_of_mem {set : ItemSet} (inside : ∀ item ∈ set, item.Belongs g) {item : Item}
    (mem : item ∈ set) {s : Symbol} {rest : List Symbol} (after : item.after = s :: rest) :
    ⟨item.lhs, item.before ++ [s], rest, item.lookahead⟩ ∈ set.goto g s := by
  have advanced : item.advanceOver? s =
      some ⟨item.lhs, item.before ++ [s], rest, item.lookahead⟩ :=
    Item.advanceOver?_eq_some.mpr ⟨s, rest, after, rfl, rfl⟩
  refine mem_closure_of_mem ((OrderedSet.mem_insertAll (Item.distinguishes_belongs kinds)
    (fun _ nothing => absurd nothing OrderedSet.not_mem_empty) fun next hnext => ?_).mpr
      (.inr (List.mem_filterMap.mpr ⟨item, mem, advanced⟩)))
  obtain ⟨other, here, moved⟩ := List.mem_filterMap.mp hnext
  exact (inside other here).advanceOver moved

end OneKind

end ItemSet

end CanonicalLR
