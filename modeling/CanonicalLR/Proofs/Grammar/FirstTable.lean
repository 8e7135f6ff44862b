import CanonicalLR.Grammar.First
import CanonicalLR.Proofs.Grammar.Names
import Mathlib.Algebra.GroupWithZero.Nat
import Mathlib.Algebra.Order.BigOperators.Group.List
import Mathlib.Algebra.Order.Group.Nat

/-!
FIRST of strings by a table, and the rounds that fill one. A string begins with what its first part
begins with and, where that part can be empty, with what the rest begins with. Every round leaves
the table as it is or makes the sets of the left-hand sides larger, so the rounds that are made are
enough: another one changes nothing.
-/

set_option autoImplicit false
set_option relaxedAutoImplicit false

namespace CanonicalLR

namespace FirstTable

variable {table : FirstTable}

/-- All sets of a table hold terminals only, the empty symbol among them. -/
def HoldsTerminals (table : FirstTable) : Prop :=
  ∀ s first, table.find? s = some first → ∀ a ∈ first, a.isTerminal = true

private theorem isEmpty_eq_false_iff {a : Symbol} (terminal : a.isTerminal = true) :
    a.isEmpty = false ↔ a ≠ .empty := by
  constructor
  · rintro visible rfl
    cases visible
  · intro different
    by_contra empty
    exact different (Symbol.eq_empty_of_isEmpty terminal (by simpa using empty))

theorem isTerminal_of_mem_ofString (holds : table.HoldsTerminals) {string : List Symbol}
    {a : Symbol} (h : a ∈ table.ofString string) : a.isTerminal = true := by
  induction string with
  | nil => rw [OrderedSet.mem_singleton.mp h]; rfl
  | cons s string ih =>
    unfold ofString at h
    split at h
    · cases h
    · next first found =>
      dsimp only at h
      split at h
      · rcases OrderedSet.mem_or_mem_of_mem_insertAll h with h | h
        · exact holds s first found a (OrderedSet.mem_filter.mp h).1
        · exact ih h
      · exact holds s first found a (OrderedSet.mem_filter.mp h).1

@[simp] theorem mem_ofString_nil {a : Symbol} : a ∈ table.ofString [] ↔ a = .empty :=
  OrderedSet.mem_singleton

/-- A string whose first symbol has no entry begins with nothing. -/
theorem not_mem_ofString_of_none {s : Symbol} (missing : table.find? s = none)
    {string : List Symbol} {a : Symbol} : a ∉ table.ofString (s :: string) := by
  unfold ofString
  rw [missing]
  exact OrderedSet.not_mem_empty

private theorem ofString_cons_of_some {s : Symbol} {first : OrderedSet Symbol}
    (found : table.find? s = some first) {string : List Symbol} :
    table.ofString (s :: string) = if first.contains .empty then
      (first.filter (!·.isEmpty)).insertAll (table.ofString string).toList
    else first.filter (!·.isEmpty) := by
  rw [ofString, found]

/-- A string begins with what its first symbol begins with and, if that can be empty, with what the
rest begins with. -/
theorem mem_ofString_cons (holds : table.HoldsTerminals) {s : Symbol} {first : OrderedSet Symbol}
    (found : table.find? s = some first) {string : List Symbol} {a : Symbol} :
    a ∈ table.ofString (s :: string) ↔
      a ∈ first ∧ a ≠ .empty ∨ .empty ∈ first ∧ a ∈ table.ofString string := by
  have terminals := holds s first found
  have visible : a ∈ first.filter (!·.isEmpty) ↔ a ∈ first ∧ a ≠ .empty := by
    rw [OrderedSet.mem_filter]
    refine and_congr_right fun mem => ?_
    rw [Bool.not_eq_true', isEmpty_eq_false_iff (terminals a mem)]
  rw [ofString_cons_of_some found]
  split
  · next nullable =>
    have here : Symbol.empty ∈ first :=
      OrderedSet.mem_of_contains Symbol.distinguishes_terminal terminals rfl nullable
    rw [OrderedSet.mem_insertAll Symbol.distinguishes_terminal
      (fun b hb => terminals b (OrderedSet.mem_filter.mp hb).1)
      (fun b hb => isTerminal_of_mem_ofString holds hb), visible]
    simp only [here, true_and]
    exact Iff.rfl
  · next missing =>
    have absent : Symbol.empty ∉ first := fun mem => missing (OrderedSet.contains_of_mem mem)
    simp only [visible, absent, false_and, or_false]

/-- FIRST of a single symbol is its entry. -/
theorem mem_ofString_singleton (holds : table.HoldsTerminals) {s : Symbol}
    {first : OrderedSet Symbol} (found : table.find? s = some first) {a : Symbol} :
    a ∈ table.ofString [s] ↔ a ∈ first := by
  rw [mem_ofString_cons holds found, mem_ofString_nil]
  by_cases empty : a = .empty <;> simp [empty]

/-- A string begins with what its first part begins with and, if that can be empty, with what the
second part begins with. -/
theorem mem_ofString_append (holds : table.HoldsTerminals) {left right : List Symbol}
    {a : Symbol} : a ∈ table.ofString (left ++ right) ↔
      a ∈ table.ofString left ∧ a ≠ .empty ∨
        .empty ∈ table.ofString left ∧ a ∈ table.ofString right := by
  induction left generalizing a with
  | nil => simp
  | cons s left ih =>
    rw [List.cons_append]
    cases found : table.find? s with
    | none => simp [not_mem_ofString_of_none found]
    | some first =>
      rw [mem_ofString_cons holds found, mem_ofString_cons holds found,
        mem_ofString_cons holds found, ih]
      tauto

/-- FIRST of a string depends on the entries of its symbols only. -/
theorem ofString_congr {other : FirstTable} {string : List Symbol}
    (same : ∀ s ∈ string, table.find? s = other.find? s) :
    table.ofString string = other.ofString string := by
  induction string with
  | nil => rfl
  | cons s string ih =>
    simp only [List.forall_mem_cons] at same
    unfold ofString
    rw [same.1, ih same.2]

/-- FIRST of a string depends on the names of its symbols only. -/
theorem ofString_congr_names {left right : List Symbol}
    (names : left.map Symbol.name = right.map Symbol.name) :
    table.ofString left = table.ofString right := by
  induction left generalizing right with
  | nil =>
    rw [List.map_eq_nil_iff.mp names.symm]
  | cons s left ih =>
    cases right with
    | nil => cases names
    | cons t right =>
      obtain ⟨heads, tails⟩ := List.cons_eq_cons.mp names
      unfold ofString
      rw [SymbolMap.find?_congr table heads, ih tails]

/-- The number of symbols in the entry of a symbol. -/
private def entrySize (table : FirstTable) (s : Symbol) : Nat :=
  ((table.find? s).getD .empty).size

/-- The number of symbols in the entries of the symbols of a list. -/
private def weight (symbols : List Symbol) (table : FirstTable) : Nat :=
  (symbols.map table.entrySize).sum

theorem find?_apply (table : FirstTable) (production : Production) (s : Symbol) :
    (table.apply production).find? s = if s == production.lhs then
      some (((table.find? production.lhs).getD .empty).insertAll
        (table.ofString production.rhs).toList) else table.find? s :=
  SymbolMap.find?_alter ..

private theorem entrySize_le_apply (table : FirstTable) (production : Production) (s : Symbol) :
    table.entrySize s ≤ (table.apply production).entrySize s := by
  unfold entrySize
  rw [find?_apply]
  split
  · next same =>
    rw [table.find?_congr (Symbol.beq_iff_name_eq.mp same), Option.getD_some]
    rcases OrderedSet.insertAll_eq_or_size_lt ((table.find? production.lhs).getD .empty)
      (table.ofString production.rhs).toList with same | larger
    · rw [same]
    · exact Nat.le_of_lt larger
  · exact Nat.le_refl _

/-- A production leaves the table as it is or raises the weight of the left-hand sides. -/
private theorem apply_eq_or_weight_lt {symbols : List Symbol} {production : Production}
    (entry : ∃ first, table.find? production.lhs = some first)
    (listed : ∃ s ∈ symbols, s.name = production.lhs.name) :
    table.apply production = table ∨
      weight symbols table < weight symbols (table.apply production) := by
  obtain ⟨first, found⟩ := entry
  obtain ⟨s, mem, name⟩ := listed
  rcases first.insertAll_eq_or_size_lt (table.ofString production.rhs).toList with same | larger
  · exact .inl (SymbolMap.alter_eq_self found (by simpa using same))
  · refine .inr (List.sum_lt_sum _ _ (fun t _ => entrySize_le_apply table production t) ⟨s, mem, ?_⟩)
    simp only [entrySize, find?_apply, Symbol.beq_iff_name_eq.mpr name, table.find?_congr name,
      found, if_true, Option.getD_some]
    exact larger

private theorem exists_find?_apply {s : Symbol} (entry : ∃ first, table.find? s = some first)
    (production : Production) : ∃ first, (table.apply production).find? s = some first := by
  rw [find?_apply]
  split
  · exact ⟨_, rfl⟩
  · exact entry

/-- What applying a production keeps, a round keeps. -/
theorem round_induction {productions : List Production} {Q : FirstTable → Prop}
    (keep : ∀ table, ∀ p ∈ productions, Q table → Q (table.apply p)) (h : Q table) :
    Q (table.round productions) := by
  induction productions generalizing table with
  | nil => exact h
  | cons production productions ih =>
    exact ih (fun table p mem => keep table p (List.mem_cons_of_mem _ mem))
      (keep table production (List.mem_cons_self ..) h)

/-- A round leaves the table as it is or raises the weight of the left-hand sides. In the first case
no production changes the table. -/
private theorem round_eq_or_weight_lt {symbols : List Symbol} {productions : List Production}
    (entries : ∀ p ∈ productions, ∃ first, table.find? p.lhs = some first)
    (listed : ∀ p ∈ productions, ∃ s ∈ symbols, s.name = p.lhs.name) :
    (table.round productions = table ∧ ∀ p ∈ productions, table.apply p = table) ∨
      weight symbols table < weight symbols (table.round productions) := by
  induction productions generalizing table with
  | nil => exact .inl ⟨rfl, nofun⟩
  | cons production productions ih =>
    simp only [List.forall_mem_cons] at entries listed
    have rest := @ih (table.apply production)
      (fun p hp => exists_find?_apply (entries.2 p hp) production) listed.2
    change (round productions (table.apply production) = table ∧ _) ∨
      weight symbols table < weight symbols (round productions (table.apply production))
    rcases apply_eq_or_weight_lt entries.1 listed.1 with same | larger
    · rw [same] at rest ⊢
      rcases rest with ⟨unchanged, all⟩ | higher
      · exact .inl ⟨unchanged, List.forall_mem_cons.mpr ⟨same, all⟩⟩
      · exact .inr higher
    · rcases rest with ⟨unchanged, _⟩ | higher
      · exact .inr (by rwa [unchanged])
      · exact .inr (Nat.lt_trans larger higher)

private theorem weight_eq_of_beq {other : FirstTable} (h : (table == other) = true)
    (symbols : List Symbol) : weight symbols table = weight symbols other := by
  have sizes : ∀ s, table.entrySize s = other.entrySize s := fun s => by
    unfold entrySize
    have related := SymbolMap.find?_of_beq h s
    generalize table.find? s = left, other.find? s = right at related ⊢
    cases related with
    | none => rfl
    | some same => exact OrderedSet.size_eq_of_beq same
  simp [weight, funext sizes]

end FirstTable

namespace Grammar

variable {g : Grammar}

/-- The table after the rounds, in which the end mark has no entry of its own yet. -/
def settledTable (g : Grammar) : FirstTable :=
  settle (FirstTable.round g.productions.toList) g.roundLimit g.seedTable

theorem firstTable_computeFirst (g : Grammar) :
    g.computeFirst.firstTable = g.settledTable.set .endMark (.singleton .endMark) := rfl

/-- What holds of the table before the first round, and is kept by applying a production, holds after
the rounds. -/
theorem settledTable_induction {Q : FirstTable → Prop} (seed : Q g.seedTable)
    (keep : ∀ table, ∀ p ∈ g.productions, Q table → Q (table.apply p)) : Q g.settledTable := by
  refine settle_induction (fun table before => ?_) seed _
  exact FirstTable.round_induction keep before

/-- The values before the first round: of a terminal, of a non-terminal, of the empty symbol. -/
theorem find?_seedTable {s : Symbol} {first : OrderedSet Symbol}
    (h : g.seedTable.find? s = some first) :
    (∃ t ∈ g.terminals, s.name = t.name ∧ first = .singleton t) ∨
      (∃ A ∈ g.nonTerminals, s.name = A.name ∧ first = .empty) ∨
        s.name = "" ∧ first = .singleton .empty := by
  obtain ⟨entry, mem, name, rfl⟩ := SymbolMap.exists_entry_of_find?_ofList h
  rw [List.mem_append, List.mem_append] at mem
  rcases mem with (mem | mem) | mem
  · obtain ⟨t, ht, rfl⟩ := List.mem_map.mp mem
    exact .inl ⟨t, ht, name, rfl⟩
  · obtain ⟨A, hA, rfl⟩ := List.mem_map.mp mem
    exact .inr (.inl ⟨A, hA, name, rfl⟩)
  · split at mem
    · obtain rfl := List.mem_singleton.mp mem
      exact .inr (.inr ⟨name, rfl⟩)
    · cases mem

private theorem exists_leftHandSide {production : Production} (mem : production ∈ g.productions) :
    ∃ s ∈ g.leftHandSides.toList, s.name = production.lhs.name := by
  have listed : g.leftHandSides.contains production.lhs = true := OrderedSet.contains_ofList.mpr
    ⟨production.lhs, List.mem_map_of_mem mem, Std.ReflCmp.compare_self⟩
  obtain ⟨s, here, same⟩ := OrderedSet.contains_iff.mp listed
  exact ⟨s, here, (Symbol.compare_eq_iff_name_eq.mp same).symm⟩

private theorem exists_find?_seedTable {s A : Symbol} (mem : A ∈ g.nonTerminals)
    (name : s.name = A.name) : ∃ first, g.seedTable.find? s = some first := by
  have entry : (A, OrderedSet.empty) ∈
      g.nonTerminals.toList.map fun A => (A, (OrderedSet.empty : OrderedSet Symbol)) :=
    List.mem_map_of_mem mem
  exact SymbolMap.exists_find?_ofList
    (List.mem_append_left _ (List.mem_append_right _ entry)) name

/-- The symbols in a table's sets are terminals of the grammar or the empty symbol, and every
left-hand side has an entry. -/
structure IsFilled (g : Grammar) (table : FirstTable) : Prop where
  values : ∀ s first, table.find? s = some first → ∀ a ∈ first, a ∈ g.terminals ∨ a = .empty
  entries : ∀ p ∈ g.productions, ∃ first, table.find? p.lhs = some first

theorem IsFilled.holdsTerminals {table : FirstTable} (filled : g.IsFilled table) :
    table.HoldsTerminals := fun s first found a mem => by
  rcases filled.values s first found a mem with here | rfl
  · exact (mem_terminals.mp here).2
  · rfl

theorem isFilled_seedTable : g.IsFilled g.seedTable where
  entries _ mem := by
    obtain ⟨s, here, name⟩ := exists_leftHandSide mem
    exact exists_find?_seedTable (OrderedSet.mem_insertAll_of_mem here) name.symm
  values s first found a mem := by
    rcases find?_seedTable found with ⟨t, ht, _, rfl⟩ | ⟨A, _, _, rfl⟩ | ⟨_, rfl⟩
    · rw [OrderedSet.mem_singleton.mp mem]
      exact .inl ht
    · cases mem
    · exact .inr (OrderedSet.mem_singleton.mp mem)

private theorem mem_or_eq_empty_of_mem_ofString {table : FirstTable} (filled : g.IsFilled table)
    {string : List Symbol} {a : Symbol} (h : a ∈ table.ofString string) :
    a ∈ g.terminals ∨ a = .empty := by
  induction string with
  | nil => exact .inr (FirstTable.mem_ofString_nil.mp h)
  | cons s string ih =>
    cases found : table.find? s with
    | none => exact absurd h (FirstTable.not_mem_ofString_of_none found)
    | some first =>
      rcases (FirstTable.mem_ofString_cons filled.holdsTerminals found).mp h with here | there
      · exact filled.values s first found a here.1
      · exact ih there.2

theorem IsFilled.apply {table : FirstTable} (filled : g.IsFilled table)
    (production : Production) : g.IsFilled (table.apply production) where
  entries p mem := FirstTable.exists_find?_apply (filled.entries p mem) production
  values s first found a mem := by
    rw [FirstTable.find?_apply] at found
    split at found
    · cases found
      rcases OrderedSet.mem_or_mem_of_mem_insertAll mem with old | new
      · cases entry : table.find? production.lhs with
        | none =>
          rw [entry] at old
          cases old
        | some before =>
          rw [entry] at old
          exact filled.values _ before entry a old
      · exact mem_or_eq_empty_of_mem_ofString filled new
    · exact filled.values s first found a mem

theorem isFilled_settledTable : g.IsFilled g.settledTable :=
  settledTable_induction isFilled_seedTable fun _ p _ filled => filled.apply p

private theorem weight_le {table : FirstTable} (filled : g.IsFilled table) :
    FirstTable.weight g.leftHandSides.toList table ≤
      g.leftHandSides.size * (g.terminals.size + 1) := by
  have each : ∀ n ∈ g.leftHandSides.toList.map table.entrySize, n ≤ g.terminals.size + 1 := by
    intro n mem
    obtain ⟨s, _, rfl⟩ := List.mem_map.mp mem
    unfold FirstTable.entrySize
    cases found : table.find? s with
    | none => exact Nat.zero_le _
    | some first =>
      have covered : first.size ≤ (g.terminals.toList ++ [Symbol.empty]).length := by
        refine OrderedSet.size_le_length fun a ha => ⟨a, ?_, Std.ReflCmp.compare_self⟩
        rcases filled.values s first found a ha with here | rfl
        · exact List.mem_append_left _ here
        · exact List.mem_append_right _ (List.mem_singleton_self _)
      simpa [OrderedSet.size] using covered
  have total := List.sum_le_card_nsmul _ _ each
  simpa [FirstTable.weight, OrderedSet.size] using total

/-- After the rounds no production changes the table. -/
theorem apply_settledTable {production : Production} (mem : production ∈ g.productions) :
    g.settledTable.apply production = g.settledTable := by
  have raise : ∀ table, g.IsFilled table →
      (table.round g.productions.toList = table ∧
        ∀ p ∈ g.productions.toList, table.apply p = table) ∨
      FirstTable.weight g.leftHandSides.toList table <
        FirstTable.weight g.leftHandSides.toList (table.round g.productions.toList) :=
    fun table filled => FirstTable.round_eq_or_weight_lt (fun p hp => filled.entries p hp)
      fun p hp => exists_leftHandSide hp
  have unchanged : (FirstTable.round g.productions.toList g.settledTable ==
      g.settledTable) = true := by
    have limit : g.leftHandSides.size * (g.terminals.size + 1) <
        FirstTable.weight g.leftHandSides.toList g.seedTable + g.roundLimit := by
      unfold roundLimit
      omega
    have kept : ∀ table, g.IsFilled table → g.IsFilled (table.round g.productions.toList) :=
      fun _ filled => FirstTable.round_induction (fun _ p _ before => before.apply p) filled
    refine step_settle kept (fun _ => weight_le) (fun table filled changed => ?_)
      isFilled_seedTable limit
    rcases raise table filled with ⟨same, _⟩ | higher
    · rw [same, beq_self_eq_true] at changed
      cases changed
    · exact higher
  rcases raise g.settledTable isFilled_settledTable with ⟨_, all⟩ | higher
  · exact all production mem
  · rw [FirstTable.weight_eq_of_beq unchanged] at higher
    exact absurd higher (Nat.lt_irrefl _)

/-- The rounds come to their end: the table after them is that of some number of rounds, and one more
does not change it. -/
theorem round_settledTable : (∃ rounds : Nat, g.settledTable =
      (FirstTable.round g.productions.toList)^[rounds] g.seedTable) ∧
    g.settledTable.round g.productions.toList = g.settledTable := by
  constructor
  · refine settle_induction (P := fun table => ∃ rounds : Nat, table =
      (FirstTable.round g.productions.toList)^[rounds] g.seedTable) ?_ ⟨0, rfl⟩ _
    rintro _ ⟨rounds, rfl⟩
    exact ⟨rounds + 1, (Function.iterate_succ_apply' ..).symm⟩
  · refine FirstTable.round_induction (Q := fun table => table = g.settledTable) ?_ rfl
    rintro _ production mem rfl
    exact apply_settledTable mem

/-- Every non-terminal has an entry, also one without productions. -/
theorem exists_find?_settledTable {A : Symbol} (mem : A ∈ g.nonTerminals) :
    ∃ first, g.settledTable.find? A = some first := by
  refine settledTable_induction (Q := fun table => ∃ first, table.find? A = some first) ?_
    fun _ production _ before => FirstTable.exists_find?_apply before production
  exact exists_find?_seedTable mem rfl

end Grammar

end CanonicalLR
