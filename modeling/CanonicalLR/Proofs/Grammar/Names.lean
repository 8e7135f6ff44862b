import CanonicalLR.Grammar.Derivation
import CanonicalLR.Proofs.SymbolMap

/-!
The names of a grammar. Where every name has one kind, the order tells the grammar's symbols and
productions apart, so that its sets of symbols, its alternatives and its rule numbers are what they
are read as.
-/

set_option autoImplicit false
set_option relaxedAutoImplicit false

namespace CanonicalLR

universe u

namespace Distinguishes

variable {α : Type u} [Ord α]

/-- Lists of values that the order tells apart are told apart. -/
theorem list {P : α → Prop} (apart : Distinguishes P) :
    Distinguishes fun l : List α => ∀ a ∈ l, P a := by
  intro l
  induction l with
  | nil =>
    intro m _ _ same
    cases m with
    | nil => rfl
    | cons b m => cases same
  | cons a l ih =>
    intro m left right same
    cases m with
    | nil => cases same
    | cons b m =>
      rw [List.compare_cons_cons, Ordering.then_eq_eq] at same
      simp only [List.forall_mem_cons] at left right
      rw [apart a b left.1 right.1 same.1, ih m left.2 right.2 same.2]

end Distinguishes

namespace Production

theorem compare_eq_iff {p q : Production} :
    compare p q = .eq ↔ p.lhs.name = q.lhs.name ∧ compare p.rhs q.rhs = .eq := by
  rw [← Symbol.compare_eq_iff_name_eq]
  change compareLex (compareOn lhs) (compareOn rhs) p q = .eq ↔ _
  exact compareLex_eq_eq

instance : Std.LawfulBEqOrd Production where
  compare_eq_iff_beq {p q} := by
    rw [compare_eq_iff, ← Symbol.beq_iff_name_eq, Std.LawfulBEqOrd.compare_eq_iff_beq,
      ← Bool.and_eq_true_iff]
    rfl

/-- All symbols of a production have a property. -/
def Over (P : Symbol → Prop) (production : Production) : Prop :=
  P production.lhs ∧ ∀ s ∈ production.rhs, P s

theorem distinguishes_over {P : Symbol → Prop} (apart : Distinguishes P) :
    Distinguishes (Over P) := by
  intro p q hp hq same
  obtain ⟨left, right⟩ := compare_eq_iff.mp same
  have heads := apart p.lhs q.lhs hp.1 hq.1 (Symbol.compare_eq_iff_name_eq.mpr left)
  have bodies := apart.list p.rhs q.rhs hp.2 hq.2 right
  cases p
  cases q
  cases heads
  cases bodies
  rfl

end Production

namespace Grammar

variable {g : Grammar}

theorem OneKindPerName.distinguishes (kinds : g.OneKindPerName) :
    Distinguishes (· ∈ g.symbols) :=
  fun a b ha hb same => kinds a ha b hb (Symbol.compare_eq_iff_name_eq.mp same)

theorem over_symbols {production : Production} (mem : production ∈ g.productions) :
    production.Over (· ∈ g.symbols) :=
  ⟨lhs_mem_symbols mem, rhs_subset_symbols mem⟩

theorem start_mem_symbols : g.start ∈ g.symbols := List.mem_cons_self ..

theorem occurrences_subset_symbols : g.occurrences ⊆ g.symbols := fun _ mem =>
  List.mem_cons_of_mem _ (List.mem_append_right _ mem)

theorem mem_occurrences {s : Symbol} :
    s ∈ g.occurrences ↔ ∃ production ∈ g.productions, s ∈ production.rhs := List.mem_flatMap

theorem Derives.of_mem {production : Production} (mem : production ∈ g.productions) :
    g.Derives [production.lhs] production.rhs := by
  have step := Produces.replace mem [] []
  simp only [List.nil_append, List.append_nil] at step
  exact .single step

theorem mem_terminals {s : Symbol} :
    s ∈ g.terminals ↔ s ∈ g.occurrences ∧ s.isTerminal = true := by
  have kind : ∀ b ∈ g.occurrences.filter (·.isTerminal), b.isTerminal = true :=
    fun b hb => (List.mem_filter.mp hb).2
  exact (OrderedSet.mem_ofList Symbol.distinguishes_terminal kind).trans List.mem_filter

/-- A symbol that can be a lookahead: a terminal of the grammar or the end mark. -/
def IsLookahead (g : Grammar) (s : Symbol) : Prop := s ∈ g.terminals ∨ s = .endMark

theorem IsLookahead.isTerminal {s : Symbol} (h : g.IsLookahead s) : s.isTerminal = true := by
  rcases h with mem | rfl
  · exact (mem_terminals.mp mem).2
  · rfl

private theorem mem_leftHandSides (lhs : g.LeftHandSidesNonTerminal) {s : Symbol} :
    s ∈ g.leftHandSides ↔ ∃ production ∈ g.productions, production.lhs = s := by
  have kind : ∀ b ∈ g.productions.toList.map (·.lhs), b.isNonTerminal = true := fun b hb => by
    obtain ⟨production, mem, rfl⟩ := List.mem_map.mp hb
    exact lhs production mem
  exact (OrderedSet.mem_ofList Symbol.distinguishes_nonTerminal kind).trans List.mem_map

theorem mem_nonTerminals (lhs : g.LeftHandSidesNonTerminal) {s : Symbol} :
    s ∈ g.nonTerminals ↔ (∃ production ∈ g.productions, production.lhs = s) ∨
      s ∈ g.occurrences ∧ s.isNonTerminal = true := by
  have inside : ∀ b ∈ g.leftHandSides, b.isNonTerminal = true := fun b hb => by
    obtain ⟨production, mem, rfl⟩ := (mem_leftHandSides lhs).mp hb
    exact lhs production mem
  have added : ∀ b ∈ g.occurrences.filter (·.isNonTerminal), b.isNonTerminal = true :=
    fun b hb => (List.mem_filter.mp hb).2
  unfold nonTerminals
  rw [OrderedSet.mem_insertAll Symbol.distinguishes_nonTerminal inside added,
    mem_leftHandSides lhs, List.mem_filter]

theorem isNonTerminal_of_mem_nonTerminals (lhs : g.LeftHandSidesNonTerminal) {s : Symbol}
    (h : s ∈ g.nonTerminals) : s.isNonTerminal = true := by
  rcases (mem_nonTerminals lhs).mp h with ⟨production, mem, rfl⟩ | ⟨_, kind⟩
  · exact lhs production mem
  · exact kind

theorem nonTerminals_subset_symbols (lhs : g.LeftHandSidesNonTerminal) {s : Symbol}
    (h : s ∈ g.nonTerminals) : s ∈ g.symbols := by
  rcases (mem_nonTerminals lhs).mp h with ⟨production, mem, rfl⟩ | ⟨occurs, _⟩
  · exact lhs_mem_symbols mem
  · exact occurrences_subset_symbols occurs

theorem mem_alternatives {A : Symbol} {rhs : List Symbol} :
    rhs ∈ g.alternatives A ↔ ∃ production ∈ g.productions,
      production.lhs.name = A.name ∧ production.rhs = rhs := by
  simp only [alternatives, List.mem_map, List.mem_filter, Symbol.beq_iff_name_eq,
    OrderedSet.mem_def, and_assoc]

/-- The alternatives of one of the grammar's symbols are the right-hand sides of its productions. -/
theorem mem_alternatives_iff (kinds : g.OneKindPerName) {A : Symbol} (mem : A ∈ g.symbols)
    {rhs : List Symbol} : rhs ∈ g.alternatives A ↔ ⟨A, rhs⟩ ∈ g.productions := by
  rw [mem_alternatives]
  constructor
  · rintro ⟨production, here, name, rfl⟩
    have same := kinds _ (lhs_mem_symbols here) A mem name
    rwa [← same]
  · exact fun here => ⟨_, here, rfl, rfl⟩

/-- With one kind for every name, the rule with the number of a production is that production. -/
theorem rule?_of_ruleNumber? (kinds : g.OneKindPerName) (numbered : g.rules = g.productions.toList)
    {production : Production} (mem : production ∈ g.productions) {rule : Nat}
    (h : g.ruleNumber? production = some rule) : g.rule? rule = some production := by
  obtain ⟨bound, same, _⟩ := List.findIdx?_eq_some_iff_getElem.mp h
  have here : g.rules[rule] ∈ g.productions := by
    rw [OrderedSet.mem_def, ← numbered]
    exact List.getElem_mem bound
  have equal : g.rules[rule] = production :=
    Production.distinguishes_over kinds.distinguishes _ _ (over_symbols here) (over_symbols mem)
      (Std.LawfulBEqOrd.compare_eq_iff_beq.mpr same)
  rw [rule?, List.getElem?_eq_getElem bound, equal]

/-- Rules are numbered in the order of the productions. -/
theorem ruleNumber?_le (kinds : g.OneKindPerName) (numbered : g.rules = g.productions.toList)
    {p q : Production} (hp : p ∈ g.productions) (hq : q ∈ g.productions)
    (order : compare p q ≠ .gt) {i j : Nat} (hi : g.ruleNumber? p = some i)
    (hj : g.ruleNumber? q = some j) : i ≤ j := by
  by_contra before
  have at_i := rule?_of_ruleNumber? kinds numbered hp hi
  have at_j := rule?_of_ruleNumber? kinds numbered hq hj
  rw [rule?, numbered] at at_i at_j
  obtain ⟨bound_i, rfl⟩ := List.getElem?_eq_some_iff.mp at_i
  obtain ⟨bound_j, rfl⟩ := List.getElem?_eq_some_iff.mp at_j
  have lt := List.pairwise_iff_getElem.mp g.productions.ascending j i bound_j bound_i
    (Nat.lt_of_not_le before)
  exact order (Std.OrientedCmp.gt_iff_lt.mpr lt)

/-- What is a production of the grammar up to the kinds of its symbols has a number. -/
theorem exists_ruleNumber?_of_compare (numbered : g.rules = g.productions.toList)
    {production other : Production} (mem : production ∈ g.productions)
    (same : compare production other = .eq) : ∃ rule, g.ruleNumber? other = some rule := by
  refine Option.isSome_iff_exists.mp (List.findIdx?_isSome.trans ?_)
  exact List.any_eq_true.mpr
    ⟨production, numbered ▸ mem, Std.LawfulBEqOrd.compare_eq_iff_beq.mp same⟩

theorem exists_ruleNumber? (numbered : g.rules = g.productions.toList) {production : Production}
    (mem : production ∈ g.productions) : ∃ rule, g.ruleNumber? production = some rule :=
  exists_ruleNumber?_of_compare numbered mem Std.ReflCmp.compare_self

end Grammar

end CanonicalLR
