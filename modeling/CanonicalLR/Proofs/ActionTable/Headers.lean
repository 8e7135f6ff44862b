import CanonicalLR.Proofs.ActionTable.Cells
import Mathlib.Data.List.ReduceOption

/-!
Whose the columns of an action table are. From column 1 on there is a slot for each terminal, one for
the end mark and one for each non-terminal; if the end mark is itself among the terminals, its slot
there belongs to no symbol. A symbol's column is the place of its slot, and the headers are the symbols
of the slots in order.
-/

set_option autoImplicit false
set_option relaxedAutoImplicit false

namespace CanonicalLR.Columns

/-- What the columns of a grammar's table are for, from column 1 on. -/
def slots (g : Grammar) : List (Option Symbol) :=
  g.terminals.toList.map (fun a => if a.isEndMark then none else some a) ++
    some .endMark :: g.nonTerminals.toList.map some

variable {g : Grammar}

theorem length_slots : (slots g).length + 1 = rowLength g := by
  simp only [slots, rowLength, endColumn, OrderedSet.size, List.length_append, List.length_map,
    List.length_cons]
  omega

/-- One slot belongs to no symbol if the end mark is among the terminals. -/
theorem none_mem_slots : none ∈ slots g ↔ .endMark ∈ g.terminals := by
  simp only [slots, List.mem_append, List.mem_map, List.mem_cons, reduceCtorEq, and_false,
    exists_false, or_false]
  constructor
  · rintro ⟨a, mem, gap⟩
    have mark : a.isEndMark = true := by
      by_contra other
      rw [if_neg other] at gap
      cases gap
    rwa [← Symbol.eq_endMark_of_isEndMark (Grammar.mem_terminals.mp mem).2 mark]
  · exact fun mem => ⟨.endMark, mem, rfl⟩

theorem getElem?_slots {j : Nat} {s : Symbol} : (slots g)[j]? = some (some s) ↔
    (g.terminals.toList[j]? = some s ∧ s.isEndMark = false) ∨
      (j = g.terminals.size ∧ s = .endMark) ∨
      (g.terminals.size + 1 ≤ j ∧ g.nonTerminals.toList[j - (g.terminals.size + 1)]? = some s) := by
  have length : (g.terminals.toList.map fun a => if a.isEndMark then none else some a).length =
      g.terminals.size := List.length_map _
  rcases Nat.lt_trichotomy j g.terminals.size with less | same | more
  · rw [slots, List.getElem?_append_left (by rwa [length]), List.getElem?_map,
      Option.map_eq_some_iff]
    constructor
    · rintro ⟨a, here, kept⟩
      by_cases mark : a.isEndMark = true
      · rw [if_pos mark] at kept
        cases kept
      · rw [if_neg mark] at kept
        cases kept
        exact .inl ⟨here, by simpa using mark⟩
    · rintro (⟨here, other⟩ | ⟨same, _⟩ | ⟨more, _⟩)
      · exact ⟨s, here, by simp [other]⟩
      · omega
      · omega
  · rw [slots, List.getElem?_append_right (by omega), length, same, Nat.sub_self,
      List.getElem?_cons_zero]
    constructor
    · intro mark
      cases mark
      exact .inr (.inl ⟨rfl, rfl⟩)
    · rintro (⟨here, _⟩ | ⟨_, rfl⟩ | ⟨more, _⟩)
      · exact absurd (List.getElem?_eq_some_iff.mp here).1 (Nat.lt_irrefl _)
      · rfl
      · omega
  · obtain ⟨k, rfl⟩ := Nat.exists_eq_add_of_le (Nat.succ_le_of_lt more)
    have place : g.terminals.size + 1 + k - g.terminals.size = k + 1 := by omega
    rw [slots, List.getElem?_append_right (by omega), length, Nat.succ_eq_add_one, place,
      List.getElem?_cons_succ, List.getElem?_map, Nat.add_sub_cancel_left]
    constructor
    · intro here
      obtain ⟨a, here, kept⟩ := Option.map_eq_some_iff.mp here
      cases kept
      exact .inr (.inr ⟨by omega, here⟩)
    · rintro (⟨here, _⟩ | ⟨same, _⟩ | ⟨_, here⟩)
      · have bound := (List.getElem?_eq_some_iff.mp here).1
        rw [OrderedSet.size] at bound
        omega
      · omega
      · rw [here]
        rfl

/-- A terminal other than the end mark has the column of its place. -/
private theorem find?_terminal_iff {s : Symbol} (kind : s.isTerminal = true)
    (other : s.isEndMark = false) {column : Nat} : (ofGrammar g).find? s = some column ↔
      1 ≤ column ∧ g.terminals.toList[column - 1]? = some s := by
  rw [find?_terminal kind, find?_terminals_of_ne other]
  refine and_congr_right fun _ => ⟨?_, fun here => ⟨s, here, rfl⟩⟩
  rintro ⟨k, here, name⟩
  rw [here, Symbol.distinguishes_terminal s k kind
    (Grammar.mem_terminals.mp (List.mem_of_getElem? here)).2
    (Symbol.compare_eq_iff_name_eq.mpr name)]

private theorem find?_nonTerminal_iff (lhs : g.LeftHandSidesNonTerminal) {s : Symbol}
    (kind : s.isNonTerminal = true) {column : Nat} : (ofGrammar g).find? s = some column ↔
      endColumn g + 1 ≤ column ∧ g.nonTerminals.toList[column - (endColumn g + 1)]? = some s := by
  rw [find?_nonTerminal kind, find?_nonTerminals]
  refine and_congr_right fun _ => ⟨?_, fun here => ⟨s, here, rfl⟩⟩
  rintro ⟨k, here, name⟩
  rw [here, Symbol.distinguishes_nonTerminal s k kind
    (Grammar.isNonTerminal_of_mem_nonTerminals lhs (List.mem_of_getElem? here))
    (Symbol.compare_eq_iff_name_eq.mpr name)]

/-- The column of a symbol is the place of its slot. -/
theorem find?_eq_some_iff (lhs : g.LeftHandSidesNonTerminal) {s : Symbol} {column : Nat} :
    (ofGrammar g).find? s = some column ↔
      1 ≤ column ∧ (slots g)[column - 1]? = some (some s) := by
  have ends : endColumn g = g.terminals.size + 1 := rfl
  have listed : ∀ {j : Nat} {s : Symbol}, g.terminals.toList[j]? = some s → s.isTerminal = true :=
    fun here => (Grammar.mem_terminals.mp (List.mem_of_getElem? here)).2
  have listed' : ∀ {j : Nat} {s : Symbol}, g.nonTerminals.toList[j]? = some s →
      s.isTerminal = false := fun here => by
    simp [Symbol.isTerminal_eq_not,
      Grammar.isNonTerminal_of_mem_nonTerminals lhs (List.mem_of_getElem? here)]
  rw [getElem?_slots]
  by_cases kind : s.isTerminal = true
  · by_cases mark : s.isEndMark = true
    · obtain rfl := Symbol.eq_endMark_of_isEndMark kind mark
      rw [find?_terminal kind, find?_endMark]
      constructor
      · intro same
        cases same
        exact ⟨by omega, .inr (.inl ⟨by omega, rfl⟩)⟩
      · rintro ⟨low, ⟨_, other⟩ | ⟨place, _⟩ | ⟨_, here⟩⟩
        · cases mark.symm.trans other
        · exact congrArg some (by omega)
        · cases kind.symm.trans (listed' here)
    · rw [find?_terminal_iff kind (by simpa using mark)]
      refine and_congr_right fun _ => ⟨fun here => .inl ⟨here, by simpa using mark⟩, ?_⟩
      rintro (⟨here, _⟩ | ⟨_, rfl⟩ | ⟨_, here⟩)
      · exact here
      · exact absurd rfl mark
      · cases kind.symm.trans (listed' here)
  · have kind' : s.isNonTerminal = true := by simpa [Symbol.isTerminal_eq_not] using kind
    rw [find?_nonTerminal_iff lhs kind', ends]
    have shift : column - (g.terminals.size + 1 + 1) = column - 1 - (g.terminals.size + 1) := by
      omega
    rw [shift]
    constructor
    · rintro ⟨low, here⟩
      exact ⟨by omega, .inr (.inr ⟨by omega, here⟩)⟩
    · rintro ⟨low, ⟨here, _⟩ | ⟨_, rfl⟩ | ⟨far, here⟩⟩
      · exact absurd (listed here) kind
      · exact absurd rfl kind
      · exact ⟨by omega, here⟩

/-- The symbols of slots with their columns, of which the first is `n`. -/
def numbered : Nat → List (Option Symbol) → List (Symbol × Nat)
  | _, [] => []
  | n, none :: slots => numbered (n + 1) slots
  | n, some s :: slots => (s, n) :: numbered (n + 1) slots

@[simp] theorem map_fst_numbered (n : Nat) (slots : List (Option Symbol)) :
    (numbered n slots).map (·.1) = slots.reduceOption := by
  induction slots generalizing n with
  | nil => rfl
  | cons slot slots ih => cases slot <;> simp [numbered, ih]

/-- Where every slot has a symbol, there is nothing but symbols. -/
theorem eq_map_some {slots : List (Option Symbol)} (full : none ∉ slots) :
    slots = slots.reduceOption.map some := by
  induction slots with
  | nil => rfl
  | cons slot slots ih =>
    cases slot with
    | none => exact absurd (List.mem_cons_self ..) full
    | some s => exact congrArg (some s :: ·) (ih fun mem => full (List.mem_cons_of_mem _ mem))

/-- Where every slot has a symbol, the columns follow one another. -/
theorem map_snd_numbered {slots : List (Option Symbol)} (full : none ∉ slots) (n : Nat) :
    (numbered n slots).map (·.2) = List.range' n slots.length := by
  induction slots generalizing n with
  | nil => rfl
  | cons slot slots ih =>
    cases slot with
    | none => exact absurd (List.mem_cons_self ..) full
    | some s =>
      have later := ih (fun mem => full (List.mem_cons_of_mem _ mem)) (n + 1)
      simp [numbered, later, List.range'_succ]

theorem mem_numbered {slots : List (Option Symbol)} {n : Nat} {s : Symbol} {column : Nat} :
    (s, column) ∈ numbered n slots ↔ n ≤ column ∧ slots[column - n]? = some (some s) := by
  induction slots generalizing n with
  | nil => simp [numbered]
  | cons slot slots ih =>
    have first : (s, column) ∈ numbered n (slot :: slots) ↔
        (slot = some s ∧ column = n) ∨ (s, column) ∈ numbered (n + 1) slots := by
      cases slot <;> simp [numbered, eq_comm]
    rw [first, ih]
    constructor
    · rintro (⟨rfl, rfl⟩ | ⟨low, here⟩)
      · simp
      · refine ⟨by omega, ?_⟩
        rwa [show column - n = column - (n + 1) + 1 by omega, List.getElem?_cons_succ]
    · rintro ⟨low, here⟩
      rcases Nat.eq_or_lt_of_le low with rfl | more
      · rw [Nat.sub_self, List.getElem?_cons_zero] at here
        exact .inl ⟨Option.some.inj here, rfl⟩
      · rw [show column - n = column - (n + 1) + 1 by omega, List.getElem?_cons_succ] at here
        exact .inr ⟨more, here⟩

theorem pairwise_numbered (n : Nat) (slots : List (Option Symbol)) :
    (numbered n slots).Pairwise fun a b => a.2 < b.2 := by
  induction slots generalizing n with
  | nil => exact .nil
  | cons slot slots ih =>
    cases slot with
    | none => exact ih (n + 1)
    | some s =>
      exact .cons (fun entry mem => Nat.lt_of_succ_le (mem_numbered.mp mem).1) (ih (n + 1))

section Entries

variable (lhs : g.LeftHandSidesNonTerminal)

private theorem isTerminal_of_mem {entry : Symbol × Nat}
    (mem : entry ∈ (ofGrammar g).terminals.toList) : entry.1.isTerminal = true := by
  obtain ⟨other, listed, same⟩ := SymbolMap.key_of_mem_ofList mem
  rw [same]
  rcases List.mem_append.mp listed with listed | mark
  · exact (Grammar.mem_terminals.mp (List.fst_mem_of_mem_zipIdx listed)).2
  · rw [List.mem_singleton.mp mark]
    rfl

include lhs

private theorem isNonTerminal_of_mem {entry : Symbol × Nat}
    (mem : entry ∈ (ofGrammar g).nonTerminals.toList) : entry.1.isNonTerminal = true := by
  obtain ⟨other, listed, same⟩ := SymbolMap.key_of_mem_ofList mem
  rw [same]
  exact Grammar.isNonTerminal_of_mem_nonTerminals lhs (List.fst_mem_of_mem_zipIdx listed)

/-- The entries of the two maps are the symbols with their columns. -/
theorem mem_entries {entry : Symbol × Nat} :
    entry ∈ (ofGrammar g).terminals.toList ++ (ofGrammar g).nonTerminals.toList ↔
      (ofGrammar g).find? entry.1 = some entry.2 := by
  have kinds : entry.1.isTerminal = !entry.1.isNonTerminal := Symbol.isTerminal_eq_not _
  rw [List.mem_append]
  by_cases kind : entry.1.isTerminal = true
  · rw [find?_terminal kind, ← SymbolMap.mem_toList_iff Symbol.distinguishes_terminal
      (fun _ => isTerminal_of_mem) kind]
    refine or_iff_left fun mem => ?_
    rw [kind, isNonTerminal_of_mem lhs mem] at kinds
    cases kinds
  · have kind' : entry.1.isNonTerminal = true := by simpa [kinds] using kind
    rw [find?_nonTerminal kind', ← SymbolMap.mem_toList_iff Symbol.distinguishes_nonTerminal
      (fun _ => isNonTerminal_of_mem lhs) kind']
    exact or_iff_right fun mem => kind (isTerminal_of_mem mem)

/-- The entries of the two maps are the numbered slots, in another order. -/
theorem entries_perm :
    ((ofGrammar g).terminals.toList ++ (ofGrammar g).nonTerminals.toList).Perm
      (numbered 1 (slots g)) := by
  have apart : ∀ entry ∈ (ofGrammar g).terminals.toList,
      entry ∉ (ofGrammar g).nonTerminals.toList := fun entry mem mem' => by
    have kind := isTerminal_of_mem mem
    rw [Symbol.isTerminal_eq_not, isNonTerminal_of_mem lhs mem'] at kind
    cases kind
  refine (List.perm_ext_iff_of_nodup ?_ ?_).mpr fun entry => ?_
  · exact (SymbolMap.nodup_toList _).append (SymbolMap.nodup_toList _) apart
  · exact (pairwise_numbered 1 _).imp fun less same => by
      rw [same] at less
      exact Nat.lt_irrefl _ less
  · rw [mem_entries lhs, find?_eq_some_iff lhs]
    exact mem_numbered.symm

/-- Sorted by their columns, the entries are the numbered slots. -/
private theorem mergeSort_entries :
    ((ofGrammar g).terminals.toList ++ (ofGrammar g).nonTerminals.toList).mergeSort
      (fun a b => a.2 ≤ b.2) = numbered 1 (slots g) := by
  have perm := entries_perm lhs
  have sorted : (((ofGrammar g).terminals.toList ++ (ofGrammar g).nonTerminals.toList).mergeSort
      (fun a b => a.2 ≤ b.2)).Pairwise fun a b => a.2 ≤ b.2 := by
    refine (List.pairwise_mergeSort (fun a b c => ?_) (fun a b => ?_) _).imp of_decide_eq_true
    · simpa using Nat.le_trans
    · simpa using Nat.le_total a.2 b.2
  have numbers : (numbered 1 (slots g)).Pairwise fun a b => a.2 ≤ b.2 :=
    (pairwise_numbered 1 _).imp Nat.le_of_lt
  refine List.Perm.eq_of_pairwise (fun a b left right below above => ?_) sorted numbers
    ((List.mergeSort_perm _ _).trans perm)
  -- entries with one column are of one symbol
  have placed := (mem_entries lhs).mp ((List.mergeSort_perm _ _).mem_iff.mp left)
  have placed' := (mem_entries lhs).mp (perm.mem_iff.mpr right)
  have column : a.2 = b.2 := Nat.le_antisymm below above
  rw [column] at placed
  exact Prod.ext (eq_of_find? placed placed') column

/-- The headers are the symbols of the slots in order. -/
theorem headers_ofGrammar : (ofGrammar g).headers = (slots g).reduceOption := by
  rw [headers, mergeSort_entries lhs, map_fst_numbered]

/-- There is one column more than there are headers. -/
theorem count_ofGrammar : (ofGrammar g).count = (slots g).reduceOption.length + 1 := by
  have lengths := ((entries_perm lhs).map (·.1)).length_eq
  rw [map_fst_numbered, List.length_map, List.length_append] at lengths
  exact congrArg (· + 1) lengths

end Entries

end CanonicalLR.Columns
