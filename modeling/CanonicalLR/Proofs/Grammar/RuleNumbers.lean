import CanonicalLR.Grammar.Catalogue
import CanonicalLR.Proofs.Grammar.Productions

/-!
Rule numbers. Whatever has been done to a grammar, after its productions have been numbered the rules
are the productions in ascending order, and looking for the number of a rule is the inverse of looking
for the rule of a number, until the productions are numbered again. A catalogue, which keeps its
productions by left-hand side and the numbers in an index of their own, is read as the same grammar
and finds the same numbers.
-/

set_option autoImplicit false
set_option relaxedAutoImplicit false

namespace CanonicalLR

namespace Shelves

variable {key : Symbol} {rhs : List Symbol} {entries : List (Symbol × OrderedSet (List Symbol))}

/-- The symbol under whose name there are productions, or the given one. -/
private def keyIn (key : Symbol) (productions : List Production) : Symbol :=
  match productions.find? (·.lhs == key) with
  | some production => production.lhs
  | none => key

private theorem compare_keyIn (key : Symbol) (productions : List Production) (other : Symbol) :
    compare (keyIn key productions) other = compare key other := by
  have name : (keyIn key productions).name = key.name := by
    unfold keyIn
    split
    · next production found =>
      exact Symbol.beq_iff_name_eq.mp (by simpa using List.find?_some found)
    · rfl
  change compare (keyIn key productions).name other.name = compare key.name other.name
  rw [name]

private theorem ne_of_compare {s : Symbol} (h : compare key s ≠ .eq) : ¬ (s == key) = true :=
  fun same => h (Symbol.compare_eq_iff_name_eq.mpr (Symbol.beq_iff_name_eq.mp same).symm)

private theorem keyIn_append {productions others : List Production}
    (h : ∀ p ∈ productions, compare key p.lhs ≠ .eq) :
    keyIn key (productions ++ others) = keyIn key others := by
  have none : productions.find? (·.lhs == key) = none :=
    List.find?_eq_none.mpr fun p mem => ne_of_compare (h p mem)
  rw [keyIn, List.find?_append, none, Option.none_or]
  rfl

private theorem keyIn_of_ne {productions : List Production}
    (h : ∀ p ∈ productions, compare key p.lhs ≠ .eq) : keyIn key productions = key := by
  have all : keyIn key (productions ++ []) = key := keyIn_append h
  rwa [List.append_nil] at all

private theorem keyIn_cons {production : Production} {productions : List Production}
    (h : compare key production.lhs = .eq) : keyIn key (production :: productions) = production.lhs := by
  have same : (production.lhs == key) = true :=
    Symbol.beq_iff_name_eq.mpr (Symbol.compare_eq_iff_name_eq.mp h).symm
  have found : (production :: productions).find? (·.lhs == key) = some production := by
    rw [List.find?_cons, same]
  rw [keyIn, found]

private theorem insertInto_map (lhs : Symbol) (rhs : List Symbol) (l : List (List Symbol)) :
    OrderedSet.insertInto (⟨lhs, rhs⟩ : Production) (l.map (⟨lhs, ·⟩)) =
      (OrderedSet.insertInto rhs l).map (⟨lhs, ·⟩) := by
  induction l with
  | nil => rfl
  | cons b l ih =>
    rw [List.map_cons, OrderedSet.insertInto, OrderedSet.insertInto, compare_same]
    cases compare rhs b with
    | lt => rfl
    | eq => rfl
    | gt => exact congrArg _ ih

private theorem lhs_of_mem_shelf (entry : Symbol × OrderedSet (List Symbol)) {p : Production}
    (h : p ∈ entry.2.toList.map (⟨entry.1, ·⟩)) : p.lhs = entry.1 := by
  obtain ⟨_, _, rfl⟩ := List.mem_map.mp h
  rfl

/-- Putting an alternative on its shelf is inserting a production in its place. -/
theorem listing_alterIn (ascending : entries.Pairwise fun a b => compare a.1 b.1 = .lt)
    (inhabited : ∀ entry ∈ entries, entry.2.toList ≠ []) :
    listing (SymbolMap.alterIn key (put rhs) entries) =
      OrderedSet.insertInto ⟨keyIn key (listing entries), rhs⟩ (listing entries) := by
  induction entries with
  | nil => rfl
  | cons head entries ih =>
    obtain ⟨k, shelf⟩ := head
    obtain ⟨above, ascending⟩ := List.pairwise_cons.mp ascending
    obtain ⟨nonempty, inhabited⟩ := List.forall_mem_cons.mp inhabited
    have later : ∀ p ∈ listing entries, compare k p.lhs = .lt := by
      intro p mem
      obtain ⟨entry, here, shelved⟩ := List.mem_flatMap.mp mem
      rw [lhs_of_mem_shelf entry shelved]
      exact above entry here
    have cons : listing ((k, shelf) :: entries) =
        shelf.toList.map (⟨k, ·⟩) ++ listing entries := List.flatMap_cons
    unfold SymbolMap.alterIn
    have shelved : ∀ p ∈ shelf.toList.map fun rhs => (⟨k, rhs⟩ : Production), p.lhs = k :=
      fun p mem => lhs_of_mem_shelf (k, shelf) mem
    split
    · next less =>
      have below : ∀ p ∈ listing ((k, shelf) :: entries), compare key p.lhs = .lt := by
        intro p mem
        rcases List.mem_append.mp (cons ▸ mem) with first | others
        · rw [shelved p first]
          exact less
        · exact Std.TransCmp.lt_trans less (later p others)
      have unused : keyIn key (listing ((k, shelf) :: entries)) = key :=
        keyIn_of_ne fun p mem => by simp [below p mem]
      have front : ∀ p ∈ listing ((k, shelf) :: entries),
          compare (⟨key, rhs⟩ : Production) p = .lt := fun p mem => compare_of_lt (below p mem)
      rw [unused, OrderedSet.insertInto_of_below front]
      rfl
    · next same =>
      have kept : keyIn key (listing ((k, shelf) :: entries)) = k := by
        obtain ⟨first, others, alternatives⟩ := List.exists_cons_of_ne_nil nonempty
        rw [cons, alternatives, List.map_cons, List.cons_append]
        exact keyIn_cons same
      have behind : ∀ p ∈ listing entries, compare (⟨k, rhs⟩ : Production) p = .lt :=
        fun p mem => compare_of_lt (later p mem)
      rw [kept, cons, OrderedSet.insertInto_append_of_below behind, insertInto_map]
      exact List.flatMap_cons
    · next greater =>
      have passed : keyIn key (listing ((k, shelf) :: entries)) = keyIn key (listing entries) := by
        rw [cons]
        exact keyIn_append fun p mem => by simp [shelved p mem, greater]
      have above : ∀ p ∈ shelf.toList.map fun rhs => (⟨k, rhs⟩ : Production),
          compare (⟨keyIn key (listing entries), rhs⟩ : Production) p = .gt := by
        intro p mem
        refine Std.OrientedCmp.gt_iff_lt.mpr (compare_of_lt (Std.OrientedCmp.gt_iff_lt.mp ?_))
        rw [shelved p mem, compare_keyIn]
        exact greater
      rw [passed, cons, OrderedSet.insertInto_append_of_above above, ← ih ascending inhabited]
      exact List.flatMap_cons

end Shelves

/-- A list of rules numbers the productions that there are. It is as long as these are many, it is in
ascending order and holds them and nothing else; the number that is found for a production is the
place of the rule that is this production, and there is none only if it is none of those that there
are. Productions are the same ones here when their names are. -/
structure IsNumbering (Holds : Production → Prop) (count : Nat) (rules : List Production)
    (number? : Production → Option Nat) : Prop where
  length : rules.length = count
  ascending : rules.Pairwise fun p q => compare p q = .lt
  complete : ∀ p, p ∈ rules ↔ Holds p
  number_of_rule : ∀ (i : Nat) p, rules[i]? = some p → number? p = some i
  rule_of_number : ∀ p i, number? p = some i ↔ ∃ q, rules[i]? = some q ∧ (q == p) = true
  unnumbered : ∀ p, number? p = none ↔ ∀ q, Holds q → (q == p) = false

section Search

variable {rules : List Production} (ascending : rules.Pairwise fun p q => compare p q = .lt)
include ascending

private theorem eq_of_same {i j : Nat} {p q : Production} (hp : rules[i]? = some p)
    (hq : rules[j]? = some q) (same : (p == q) = true) : i = j := by
  obtain ⟨bound_i, rfl⟩ := List.getElem?_eq_some_iff.mp hp
  obtain ⟨bound_j, rfl⟩ := List.getElem?_eq_some_iff.mp hq
  have equal := Std.LawfulBEqOrd.compare_eq_iff_beq.mpr same
  rcases Nat.lt_trichotomy i j with less | here | greater
  · cases equal.symm.trans (List.pairwise_iff_getElem.mp ascending i j bound_i bound_j less)
  · exact here
  · have above := List.pairwise_iff_getElem.mp ascending j i bound_j bound_i greater
    cases equal.symm.trans (Std.OrientedCmp.gt_iff_lt.mpr above)

/-- In ascending rules there is one place at most for a production. -/
theorem findIdx?_eq_some_iff {p : Production} {i : Nat} :
    rules.findIdx? (· == p) = some i ↔ ∃ q, rules[i]? = some q ∧ (q == p) = true := by
  constructor
  · intro found
    obtain ⟨bound, same, -⟩ := List.findIdx?_eq_some_iff_getElem.mp found
    exact ⟨rules[i], List.getElem?_eq_getElem bound, same⟩
  · rintro ⟨q, here, same⟩
    obtain ⟨bound, rfl⟩ := List.getElem?_eq_some_iff.mp here
    refine List.findIdx?_eq_some_iff_getElem.mpr ⟨bound, same, fun j less other => ?_⟩
    have again := eq_of_same ascending (List.getElem?_eq_getElem (Nat.lt_trans less bound)) here
      (BEq.trans other (BEq.symm same))
    exact absurd again (Nat.ne_of_lt less)

theorem isNumbering_of_ascending :
    IsNumbering (· ∈ rules) rules.length rules fun p => rules.findIdx? (· == p) where
  length := rfl
  ascending := ascending
  complete _ := Iff.rfl
  number_of_rule i p here := (findIdx?_eq_some_iff ascending).mpr ⟨p, here, BEq.rfl⟩
  rule_of_number _ _ := findIdx?_eq_some_iff ascending
  unnumbered p := by simp [List.findIdx?_eq_none_iff]

end Search

namespace Grammar

variable {g : Grammar}

@[simp] theorem rules_pushAll (g : Grammar) (lhs : Symbol) (alternatives : List (List Symbol)) :
    (g.pushAll lhs alternatives).rules = g.rules := by
  rw [pushAll_eq_pushEach]
  exact (parts_pushEach g _).2.2

/-- Only numbering the productions changes the rules. -/
theorem rules_calls {later : List Call} (h : .numberRules ∉ later) :
    (g.calls later).rules = g.rules := by
  induction later generalizing g with
  | nil => rfl
  | cons call later ih =>
    rw [List.mem_cons, not_or] at h
    refine (ih h.2).trans ?_
    cases call with
    | push lhs rhs => rfl
    | pushAll lhs alternatives => exact rules_pushAll g lhs alternatives
    | augment => rfl
    | numberRules => exact absurd rfl h.1
    | computeFirst => rfl

end Grammar

namespace Catalogue

variable {c : Catalogue}

theorem toGrammar_push (c : Catalogue) (lhs : Symbol) (rhs : List Symbol) :
    (c.push lhs rhs).toGrammar = c.toGrammar.push lhs rhs :=
  Grammar.eq_of_parts rfl
    (OrderedSet.ext_toList (Shelves.listing_alterIn c.shelves.ascending c.inhabited)) rfl rfl

theorem toGrammar_pushAll (c : Catalogue) (lhs : Symbol) (alternatives : List (List Symbol)) :
    (c.pushAll lhs alternatives).toGrammar = c.toGrammar.pushAll lhs alternatives := by
  induction alternatives generalizing c with
  | nil => rfl
  | cons rhs alternatives ih => exact (ih (c.push lhs rhs)).trans (by rw [toGrammar_push]; rfl)

theorem toGrammar_augment (c : Catalogue) : c.augment.toGrammar = c.toGrammar.augment := by
  unfold Grammar.augment
  rw [← toGrammar_push]
  rfl

private theorem foldl_enter (rules : List Production)
    (numbered : List Production × Std.TreeMap Production Nat compare) :
    (rules.foldl enter numbered).1 = numbered.1 ++ rules := by
  induction rules generalizing numbered with
  | nil => simp
  | cons rule rules ih =>
    rw [List.foldl_cons, ih, enter, List.append_assoc]
    rfl

/-- The place of a rule that is entered is found, as no later one is the same. -/
private theorem getElem?_foldl_enter {rules : List Production}
    (ascending : rules.Pairwise fun p q => compare p q = .lt)
    (numbered : List Production × Std.TreeMap Production Nat compare) (p : Production) :
    (rules.foldl enter numbered).2[p]? =
      ((rules.findIdx? (· == p)).map (numbered.1.length + ·)).or numbered.2[p]? := by
  induction rules generalizing numbered with
  | nil => rfl
  | cons rule rules ih =>
    obtain ⟨above, ascending⟩ := List.pairwise_cons.mp ascending
    rw [List.foldl_cons, ih ascending, List.findIdx?_cons]
    simp only [enter, Std.TreeMap.getElem?_insert, List.length_append, List.length_singleton]
    by_cases same : (rule == p) = true
    · have equal := Std.LawfulBEqOrd.compare_eq_iff_beq.mpr same
      have absent : rules.findIdx? (· == p) = none := by
        refine List.findIdx?_eq_none_iff.mpr fun q mem => ?_
        by_contra again
        have other := Std.LawfulBEqOrd.compare_eq_iff_beq.mpr (by simpa using again)
        have less := above q mem
        rw [Std.TransCmp.congr_right other, equal] at less
        cases less
      simp [same, equal, absent]
    · have different : compare rule p ≠ .eq := mt Std.LawfulBEqOrd.compare_eq_iff_beq.mp same
      rw [if_neg same, if_neg different]
      cases rules.findIdx? (· == p) with
      | none => rfl
      | some i => simp [Nat.add_assoc, Nat.add_comm 1]

private theorem numberRules_eq (c : Catalogue) : c.numberRules =
    { c with
      rules := ((Shelves.listing c.shelves.toList).foldl enter ([], ∅)).1
      index := ((Shelves.listing c.shelves.toList).foldl enter ([], ∅)).2 } := by
  have walk : (Shelves.listing c.shelves.toList).foldl enter ([], ∅) = c.shelves.toList.foldl
      (fun numbered entry => entry.2.toList.foldl
        (fun numbered rhs => enter numbered ⟨entry.1, rhs⟩) numbered) ([], ∅) := by
    rw [Shelves.listing, List.foldl_flatMap]
    simp only [List.foldl_map]
  rw [walk]
  rfl

theorem rules_numberRules (c : Catalogue) :
    c.numberRules.rules = Shelves.listing c.shelves.toList := by
  rw [numberRules_eq]
  exact foldl_enter _ _

theorem toGrammar_numberRules (c : Catalogue) :
    c.numberRules.toGrammar = c.toGrammar.numberRules :=
  Grammar.eq_of_parts rfl rfl rfl (rules_numberRules c)

/-- What is done to a catalogue is done to the grammar that it is read as. -/
theorem toGrammar_calls (c : Catalogue) (calls : List Call) :
    (c.calls calls).toGrammar = c.toGrammar.calls calls := by
  induction calls generalizing c with
  | nil => rfl
  | cons call calls ih =>
    refine (ih (c.call call)).trans (congrArg (Grammar.calls · calls) ?_)
    cases call with
    | push lhs rhs => exact toGrammar_push c lhs rhs
    | pushAll lhs alternatives => exact toGrammar_pushAll c lhs alternatives
    | augment => exact toGrammar_augment c
    | numberRules => exact toGrammar_numberRules c
    | computeFirst => rfl

/-- The index finds the places of the rules. -/
private def Indexed (c : Catalogue) : Prop :=
  ∀ p, c.ruleNumber? p = c.rules.findIdx? (· == p)

private theorem indexed_numberRules (c : Catalogue) : c.numberRules.Indexed := by
  intro p
  have found := getElem?_foldl_enter (Shelves.ascending_listing c.shelves.ascending) ([], ∅) p
  rw [Std.TreeMap.getElem?_emptyc, Option.or_none] at found
  rw [rules_numberRules, ruleNumber?, numberRules_eq]
  refine found.trans ?_
  cases (Shelves.listing c.shelves.toList).findIdx? (· == p) <;> simp

private theorem parts_pushAll (c : Catalogue) (lhs : Symbol) (alternatives : List (List Symbol)) :
    (c.pushAll lhs alternatives).rules = c.rules ∧ (c.pushAll lhs alternatives).index = c.index := by
  induction alternatives generalizing c with
  | nil => exact ⟨rfl, rfl⟩
  | cons rhs alternatives ih => exact ih (c.push lhs rhs)

/-- Only numbering the productions changes the rules and the index. -/
theorem parts_calls {later : List Call} (h : .numberRules ∉ later) :
    (c.calls later).rules = c.rules ∧ (c.calls later).index = c.index := by
  induction later generalizing c with
  | nil => exact ⟨rfl, rfl⟩
  | cons call later ih =>
    rw [List.mem_cons, not_or] at h
    obtain ⟨rules, index⟩ := ih (c := c.call call) h.2
    have step : (c.call call).rules = c.rules ∧ (c.call call).index = c.index := by
      cases call with
      | push lhs rhs => exact ⟨rfl, rfl⟩
      | pushAll lhs alternatives => exact parts_pushAll c lhs alternatives
      | augment => exact ⟨rfl, rfl⟩
      | numberRules => exact absurd rfl h.1
      | computeFirst => exact ⟨rfl, rfl⟩
    exact ⟨rules.trans step.1, index.trans step.2⟩

private theorem length_listing (c : Catalogue) :
    (Shelves.listing c.shelves.toList).length = c.count := by
  simp [Shelves.listing, count, List.length_flatMap, OrderedSet.size]

private theorem isNumbering_numberRules (c : Catalogue) :
    IsNumbering c.shelves.Holds c.count c.numberRules.rules c.numberRules.ruleNumber? := by
  have numbers : c.numberRules.ruleNumber? =
      fun p => (Shelves.listing c.shelves.toList).findIdx? (· == p) := by
    ext1 p
    rw [indexed_numberRules c p, rules_numberRules]
  rw [numbers, rules_numberRules]
  have numbering := isNumbering_of_ascending (Shelves.ascending_listing c.shelves.ascending)
  exact
    { numbering with
      length := length_listing c
      complete := fun _ => Shelves.mem_listing
      unnumbered := fun p => (numbering.unnumbered p).trans
        (forall_congr' fun _ => imp_congr_left Shelves.mem_listing) }

end Catalogue

namespace Grammar

/-- After any calls that end with numbering the productions, the rules number them, also where they are
kept on shelves and the numbers in an index, and later calls other than numbering them again leave the
rules and their numbers as they are. -/
theorem isNumbering_of_calls (start : Symbol) (calls : List Call) :
    let g := (ofStart start).calls (calls ++ [.numberRules])
    let c := (Catalogue.ofStart start).calls (calls ++ [.numberRules])
    c.toGrammar = g ∧
      IsNumbering (· ∈ g.productions) g.productions.size g.rules g.ruleNumber? ∧
      IsNumbering c.shelves.Holds c.count c.rules c.ruleNumber? ∧
      ∀ later, .numberRules ∉ later →
        (∀ i, (g.calls later).rule? i = g.rule? i ∧ (c.calls later).rule? i = c.rule? i) ∧
        ∀ p, (g.calls later).ruleNumber? p = g.ruleNumber? p ∧
          (c.calls later).ruleNumber? p = c.ruleNumber? p := by
  intro g c
  have last_g : g = ((ofStart start).calls calls).numberRules := by
    simp [g, Grammar.calls, Grammar.call]
  have last_c : c = ((Catalogue.ofStart start).calls calls).numberRules := by
    simp [c, Catalogue.calls, Catalogue.call]
  refine ⟨Catalogue.toGrammar_calls _ _, ?_, ?_, fun later others => ?_⟩
  · rw [last_g]
    exact isNumbering_of_ascending (OrderedSet.ascending _)
  · rw [last_c]
    exact Catalogue.isNumbering_numberRules _
  · have rules := rules_calls (g := g) others
    obtain ⟨rules', index⟩ := Catalogue.parts_calls (c := c) others
    exact ⟨fun i => ⟨by rw [rule?, rules, rule?], by rw [Catalogue.rule?, rules', Catalogue.rule?]⟩,
      fun p => ⟨by rw [ruleNumber?, rules, ruleNumber?],
        by rw [Catalogue.ruleNumber?, index, Catalogue.ruleNumber?]⟩⟩

/-- Productions that come before and behind those numbered first, a fresh start symbol, and a production
that comes after all of them have been numbered again and would be the first one. -/
theorem isNumbering_of_calls_renumbered : ∃ g : Grammar,
    g = (ofStart (.nonTerminal "S")).calls [.push (.nonTerminal "S") [.terminal "b"], .numberRules,
      .augment, .pushAll (.nonTerminal "S") [[.terminal "a", .nonTerminal "S"], [.empty]],
      .numberRules] ∧
    g.rules = [⟨.nonTerminal "S", []⟩, ⟨.nonTerminal "S", [.terminal "a", .nonTerminal "S"]⟩,
      ⟨.nonTerminal "S", [.terminal "b"]⟩, ⟨.nonTerminal "S'", [.nonTerminal "S"]⟩] ∧
    g.ruleNumber? ⟨.nonTerminal "S'", [.nonTerminal "S"]⟩ = some 3 ∧
    Call.numberRules ∉ [.push (.nonTerminal "A") [.terminal "a"], .computeFirst] ∧
    (g.calls [.push (.nonTerminal "A") [.terminal "a"], .computeFirst]).ruleNumber?
      ⟨.nonTerminal "S'", [.nonTerminal "S"]⟩ = some 3 ∧
    (g.calls [.push (.nonTerminal "A") [.terminal "a"], .computeFirst]).ruleNumber?
      ⟨.nonTerminal "A", [.terminal "a"]⟩ = none := by
  obtain ⟨-, numbering, -, kept⟩ := isNumbering_of_calls (.nonTerminal "S")
    [.push (.nonTerminal "S") [.terminal "b"], .numberRules, .augment,
      .pushAll (.nonTerminal "S") [[.terminal "a", .nonTerminal "S"], [.empty]]]
  have others : Call.numberRules ∉
      [.push (.nonTerminal "A") [.terminal "a"], .computeFirst] := by decide
  obtain ⟨-, numbers⟩ := kept _ others
  refine ⟨_, rfl, by decide +kernel, numbering.number_of_rule 3 _ (by decide +kernel), others, ?_, ?_⟩
  · exact (numbers _).1.trans (numbering.number_of_rule 3 _ (by decide +kernel))
  · exact (numbers _).1.trans ((numbering.unnumbered _).mpr (by decide +kernel))

end Grammar

end CanonicalLR
