import CanonicalLR.Grammar.First
import CanonicalLR.Proofs.Grammar.Names

/-!
What preparation makes of a grammar. The new start symbol is one that neither the productions nor
the start symbol before have the name of; it stands on the left of one production, whose right-hand
side is the start symbol before, and nowhere else. What it derives, other than itself, the start
symbol before derived.
-/

set_option autoImplicit false
set_option relaxedAutoImplicit false

namespace CanonicalLR.Grammar

variable {g : Grammar}

private theorem uses_iff {s : Symbol} :
    g.uses s = true ↔
      s.name ∈ (g.productions.toList.map (·.lhs.name) ++ g.occurrences.map (·.name)) := by
  simp only [uses, List.any_eq_true, Bool.or_eq_true, Symbol.beq_iff_name_eq, List.mem_append,
    List.mem_map, occurrences, List.mem_flatMap]
  constructor
  · rintro ⟨production, mem, same | ⟨t, ht, same⟩⟩
    · exact .inl ⟨production, mem, same.symm⟩
    · exact .inr ⟨t, ⟨production, mem, ht⟩, same.symm⟩
  · rintro (⟨production, mem, same⟩ | ⟨t, ⟨production, mem, ht⟩, same⟩)
    · exact ⟨production, mem, .inl same.symm⟩
    · exact ⟨production, mem, .inr ⟨t, ht, same.symm⟩⟩

private theorem length_primedStart (primes : Nat) :
    (g.primedStart primes).name.length = g.start.name.length + primes := by
  simp [primedStart, Symbol.nonTerminal]

/-- There are more candidates for the start name than used names. -/
private theorem exists_free : ∃ i ∈ List.range (g.usedCount + 1),
    (!g.uses (g.primedStart (i + 1))) = true := by
  by_contra none
  let used := g.productions.toList.map (·.lhs.name) ++ g.occurrences.map (·.name)
  let candidates := (List.range (g.usedCount + 1)).map fun i => (g.primedStart (i + 1)).name
  have distinct : candidates.Nodup := by
    refine List.Nodup.map (fun i j same => ?_) List.nodup_range
    have lengths := congrArg String.length same
    rw [length_primedStart, length_primedStart] at lengths
    omega
  have inside : candidates ⊆ used := by
    intro name mem
    obtain ⟨i, hi, rfl⟩ := List.mem_map.mp mem
    refine uses_iff.mp ?_
    by_contra free
    exact none ⟨i, hi, by simpa using free⟩
  have count := (List.subperm_of_subset distinct inside).length_le
  simp only [candidates, used, usedCount, OrderedSet.size, List.length_map, List.length_range,
    List.length_append] at count
  omega

/-- The search for a name comes to its end: the start name has as many primes as leave it the first
name that no production uses. -/
theorem freshPrimes_spec : ∃ i, g.freshPrimes = i + 1 ∧ g.uses (g.primedStart (i + 1)) = false ∧
    ∀ j < i, g.uses (g.primedStart (j + 1)) = true := by
  cases found : (List.range (g.usedCount + 1)).find? fun i => !g.uses (g.primedStart (i + 1)) with
  | none =>
    obtain ⟨i, mem, free⟩ := exists_free (g := g)
    exact absurd free (List.find?_eq_none.mp found i mem)
  | some i =>
    obtain ⟨free, _, before⟩ := List.find?_range_eq_some.mp found
    exact ⟨i, by simp [freshPrimes, found], by simpa using free, fun j less => by
      simpa using before j less⟩

theorem uses_freshStart : g.uses g.freshStart = false := by
  obtain ⟨i, primes, free, _⟩ := freshPrimes_spec (g := g)
  rwa [freshStart, primes]

/-- The fresh start symbol differs in name from all symbols of the grammar. -/
theorem name_ne_freshStart {s : Symbol} (h : s ∈ g.symbols) : s.name ≠ g.freshStart.name := by
  intro same
  rcases List.mem_cons.mp h with rfl | mem
  · have lengths := congrArg String.length same
    rw [freshStart, length_primedStart, freshPrimes] at lengths
    omega
  · have used : g.uses g.freshStart = true := by
      rw [uses_iff, ← same]
      rcases List.mem_append.mp mem with mem | mem
      · obtain ⟨production, here, rfl⟩ := List.mem_map.mp mem
        exact List.mem_append_left _ (List.mem_map_of_mem (f := (·.lhs.name)) here)
      · exact List.mem_append_right _ (List.mem_map_of_mem mem)
    rw [uses_freshStart] at used
    cases used

theorem name_freshStart_ne (name : String) (plain : name.toList.getLast? ≠ some '\'') :
    g.freshStart.name ≠ name := by
  rintro rfl
  refine plain ?_
  simp [freshStart, primedStart, freshPrimes, Symbol.nonTerminal, List.replicate_succ']

def startProduction (g : Grammar) : Production := ⟨g.freshStart, [g.start]⟩

@[simp] theorem start_prepare : g.prepare.start = g.freshStart := rfl

@[simp] theorem rules_prepare : g.prepare.rules = g.prepare.productions.toList := rfl

private theorem leftHandSide_freshStart : g.leftHandSide g.freshStart = g.freshStart := by
  have absent : g.productions.toList.find? (·.lhs == g.freshStart) = none :=
    List.find?_eq_none.mpr fun production mem same =>
      name_ne_freshStart (lhs_mem_symbols mem) (Symbol.beq_iff_name_eq.mp same)
  simp [leftHandSide, absent]

private theorem productions_prepare : g.prepare.productions =
    g.productions.insert ⟨g.freshStart, [g.start].filter (!·.isEmpty)⟩ := by
  change g.productions.insert ⟨g.leftHandSide g.freshStart, [g.start].filter (!·.isEmpty)⟩ = _
  rw [leftHandSide_freshStart]

/-- A prepared grammar has one production more. -/
theorem mem_productions_prepare (named : g.start.isEmpty = false) {production : Production} :
    production ∈ g.prepare.productions ↔
      production = g.startProduction ∨ production ∈ g.productions := by
  have same : g.prepare.productions = g.productions.insert g.startProduction := by
    rw [productions_prepare]
    simp [startProduction, named]
  rw [same]
  refine ⟨OrderedSet.eq_or_mem_of_mem_insert, ?_⟩
  rintro (rfl | mem)
  · obtain ⟨other, here, equal⟩ := OrderedSet.contains_iff.mp
      (OrderedSet.contains_insert (s := g.productions).mpr (.inl Std.ReflCmp.compare_self) :
        (g.productions.insert g.startProduction).contains g.startProduction = true)
    rcases OrderedSet.eq_or_mem_of_mem_insert here with rfl | old
    · exact here
    · exact absurd (Production.compare_eq_iff.mp equal).1.symm
        (name_ne_freshStart (lhs_mem_symbols old))
  · exact OrderedSet.mem_insert_of_mem mem

section Named

variable (named : g.start.isEmpty = false)
include named

theorem productions_subset_prepare {production : Production} (h : production ∈ g.productions) :
    production ∈ g.prepare.productions :=
  (mem_productions_prepare named).mpr (.inr h)

theorem startProduction_mem_prepare : g.startProduction ∈ g.prepare.productions :=
  (mem_productions_prepare named).mpr (.inl rfl)

theorem mem_symbols_of_mem_occurrences {s : Symbol} (h : s ∈ g.prepare.occurrences) :
    s ∈ g.symbols := by
  obtain ⟨production, mem, hs⟩ := mem_occurrences.mp h
  rcases (mem_productions_prepare named).mp mem with rfl | old
  · rw [List.mem_singleton.mp hs]
    exact start_mem_symbols
  · exact rhs_subset_symbols old hs

theorem start_not_mem_occurrences_prepare : g.prepare.start ∉ g.prepare.occurrences := fun h =>
  name_ne_freshStart (mem_symbols_of_mem_occurrences named h) rfl

/-- The symbols of the prepared grammar are those before and the fresh start symbol. -/
theorem mem_symbols_prepare {s : Symbol} :
    s ∈ g.prepare.symbols ↔ s = g.freshStart ∨ s ∈ g.symbols := by
  constructor
  · intro h
    rcases List.mem_cons.mp h with rfl | mem
    · exact .inl rfl
    · rcases List.mem_append.mp mem with mem | mem
      · obtain ⟨production, here, rfl⟩ := List.mem_map.mp mem
        rcases (mem_productions_prepare named).mp here with rfl | old
        · exact .inl rfl
        · exact .inr (lhs_mem_symbols old)
      · exact .inr (mem_symbols_of_mem_occurrences named mem)
  · rintro (rfl | h)
    · exact start_mem_symbols
    · rcases List.mem_cons.mp h with rfl | mem
      · exact rhs_subset_symbols (startProduction_mem_prepare named) (List.mem_singleton_self _)
      · rcases List.mem_append.mp mem with mem | mem
        · obtain ⟨production, here, rfl⟩ := List.mem_map.mp mem
          exact lhs_mem_symbols (productions_subset_prepare named here)
        · obtain ⟨production, here, hs⟩ := mem_occurrences.mp mem
          exact rhs_subset_symbols (productions_subset_prepare named here) hs

/-- Preparation brings no terminals. -/
theorem mem_terminals_prepare (kind : g.start.isNonTerminal = true) {s : Symbol} :
    s ∈ g.prepare.terminals ↔ s ∈ g.terminals := by
  rw [mem_terminals, mem_terminals]
  refine and_congr_left fun terminal => ⟨fun occurs => ?_, fun occurs => ?_⟩
  · obtain ⟨production, mem, hs⟩ := mem_occurrences.mp occurs
    rcases (mem_productions_prepare named).mp mem with rfl | old
    · rw [List.mem_singleton.mp hs, Symbol.isTerminal_eq_not, kind] at terminal
      cases terminal
    · exact mem_occurrences.mpr ⟨production, old, hs⟩
  · obtain ⟨production, mem, hs⟩ := mem_occurrences.mp occurs
    exact mem_occurrences.mpr ⟨production, productions_subset_prepare named mem, hs⟩

theorem LeftHandSidesNonTerminal.prepare (lhs : g.LeftHandSidesNonTerminal) :
    g.prepare.LeftHandSidesNonTerminal := fun production mem => by
  rcases (mem_productions_prepare named).mp mem with rfl | old
  · rfl
  · exact lhs production old

theorem OneKindPerName.prepare (kinds : g.OneKindPerName) : g.prepare.OneKindPerName := by
  intro a ha b hb same
  rcases (mem_symbols_prepare named).mp ha with rfl | ha
  · rcases (mem_symbols_prepare named).mp hb with rfl | hb
    · rfl
    · exact absurd same.symm (name_ne_freshStart hb)
  · rcases (mem_symbols_prepare named).mp hb with rfl | hb
    · exact absurd same (name_ne_freshStart ha)
    · exact kinds a ha b hb same

theorem AvoidsEndMark.prepare (avoids : g.AvoidsEndMark) : g.prepare.AvoidsEndMark := by
  intro a ha
  rcases (mem_symbols_prepare named).mp ha with rfl | ha
  · exact beq_eq_false_iff_ne.mpr (name_freshStart_ne "$" (by decide))
  · exact avoids a ha

theorem EndMarkIsTerminal.prepare (marks : g.EndMarkIsTerminal) : g.prepare.EndMarkIsTerminal := by
  intro a ha kind
  rcases (mem_symbols_prepare named).mp ha with rfl | ha
  · exact beq_eq_false_iff_ne.mpr (name_freshStart_ne "$" (by decide))
  · exact marks a ha kind

theorem alternatives_freshStart : g.prepare.alternatives g.freshStart = [[g.start]] := by
  have only : g.prepare.productions.toList.filter (·.lhs == g.freshStart) =
      [g.startProduction] := by
    refine List.perm_singleton.mp ((List.perm_ext_iff_of_nodup
      (g.prepare.productions.nodup.filter _) (List.nodup_singleton _)).mpr fun production => ?_)
    rw [List.mem_filter, ← OrderedSet.mem_def, mem_productions_prepare named,
      Symbol.beq_iff_name_eq, List.mem_singleton]
    constructor
    · rintro ⟨same | old, name⟩
      · exact same
      · exact absurd name (name_ne_freshStart (lhs_mem_symbols old))
    · rintro rfl
      exact ⟨.inl rfl, rfl⟩
  rw [alternatives, only]
  rfl

theorem isAugmented_prepare : g.prepare.isAugmented = true := by
  have only : g.prepare.alternatives g.prepare.start = [[g.start]] := alternatives_freshStart named
  rw [isAugmented, only]

end Named

/-- A grammar without a start name is not augmented by preparation: the new production is empty. -/
theorem named_of_isAugmented_prepare (h : g.prepare.isAugmented = true) :
    g.start.isEmpty = false := by
  by_contra unnamed
  obtain ⟨s, only⟩ : ∃ s, g.prepare.alternatives g.prepare.start = [[s]] := by
    unfold isAugmented at h
    split at h
    · next s only => exact ⟨s, only⟩
    · cases h
  have listed : [s] ∈ g.prepare.alternatives g.prepare.start := by
    rw [only]
    exact List.mem_singleton_self _
  obtain ⟨production, mem, name, rhs⟩ := mem_alternatives.mp listed
  rw [productions_prepare] at mem
  rcases OrderedSet.eq_or_mem_of_mem_insert mem with rfl | old
  · simp [unnamed] at rhs
  · exact name_ne_freshStart (lhs_mem_symbols old) name

section Derivations

theorem Derives.mono {h : Grammar} (subset : ∀ p ∈ g.productions, p ∈ h.productions)
    {u v : List Symbol} (derives : g.Derives u v) : h.Derives u v := by
  induction derives with
  | refl => exact .refl
  | tail _ step ih =>
    cases step with
    | replace mem left right => exact ih.tail (.replace (subset _ mem) left right)

theorem Derives.subset_symbols {u v : List Symbol} (derives : g.Derives u v)
    (inside : ∀ s ∈ u, s ∈ g.symbols) : ∀ s ∈ v, s ∈ g.symbols := by
  induction derives with
  | refl => exact inside
  | tail _ step ih =>
    cases step with
    | replace mem left right =>
      intro s hs
      simp only [List.mem_append, List.mem_cons] at hs ih
      rcases hs with (hs | hs) | hs
      · exact ih s (.inl hs)
      · exact rhs_subset_symbols mem hs
      · exact ih s (.inr (.inr hs))

theorem Derives.mem_or_occurs {u v : List Symbol} (derives : g.Derives u v) {s : Symbol}
    (mem : s ∈ v) : s ∈ u ∨ s ∈ g.occurrences := by
  induction derives with
  | refl => exact .inl mem
  | tail _ step ih =>
    cases step with
    | replace here left right =>
      simp only [List.mem_append, List.mem_cons] at mem ih
      rcases mem with (mem | mem) | mem
      · exact ih (.inl mem)
      · exact .inr (mem_occurrences.mpr ⟨_, here, mem⟩)
      · exact ih (.inr (.inr mem))

/-- What is derived from symbols that occur occurs. -/
theorem Derives.subset_occurrences {u v : List Symbol} (derives : g.Derives u v)
    (occur : u ⊆ g.occurrences) : v ⊆ g.occurrences := fun _ mem =>
  (derives.mem_or_occurs mem).elim (fun old => occur old) id

/-- Where non-terminals derive terminal strings, so do strings of symbols. -/
theorem Productive.exists_derives (productive : g.Productive) {u : List Symbol}
    (inside : ∀ s ∈ u, s.isNonTerminal = true → s ∈ g.symbols) :
    ∃ w, (∀ s ∈ w, s.isTerminal = true) ∧ g.Derives u w := by
  induction u with
  | nil => exact ⟨[], nofun, .refl⟩
  | cons s u ih =>
    obtain ⟨first, later⟩ := List.forall_mem_cons.mp inside
    obtain ⟨w, terminals, derives⟩ := ih later
    obtain ⟨v, terminals', derives'⟩ :
        ∃ v : List Symbol, (∀ t ∈ v, t.isTerminal = true) ∧ g.Derives [s] v := by
      by_cases kind : s.isNonTerminal = true
      · exact productive s (first kind) kind
      · exact ⟨[s], by simpa [Symbol.isTerminal_eq_not] using kind, .refl⟩
    exact ⟨v ++ w, fun t mem => (List.mem_append.mp mem).elim (terminals' t) (terminals t),
      derives'.concat derives⟩

section Prepared

variable (named : g.start.isEmpty = false)
include named

private theorem Produces.of_prepare {u v : List Symbol} (step : g.prepare.Produces u v)
    (inside : ∀ s ∈ u, s ∈ g.symbols) : g.Produces u v := by
  cases step with
  | @replace production mem left right =>
    rcases (mem_productions_prepare named).mp mem with rfl | old
    · exact absurd rfl (name_ne_freshStart (inside g.freshStart
        (List.mem_append_right _ (List.mem_cons_self ..))))
    · exact .replace old left right

/-- What the symbols of the grammar derive in the prepared grammar they derive in the grammar. -/
theorem Derives.of_prepare {u v : List Symbol} (derives : g.prepare.Derives u v)
    (inside : ∀ s ∈ u, s ∈ g.symbols) : g.Derives u v := by
  induction derives with
  | refl => exact .refl
  | tail _ step ih => exact ih.tail (step.of_prepare named (ih.subset_symbols inside))

/-- The fresh start symbol derives itself and what the start symbol derives. -/
theorem Derives.of_freshStart {v : List Symbol} (derives : g.prepare.Derives [g.freshStart] v) :
    v = [g.freshStart] ∨ g.Derives [g.start] v := by
  have start : ∀ s ∈ [g.start], s ∈ g.symbols := by simpa using start_mem_symbols
  induction derives with
  | refl => exact .inl rfl
  | tail _ step ih =>
    rcases ih with rfl | before
    · generalize whole : [g.freshStart] = u at step
      cases step with
      | @replace production mem left right =>
        obtain ⟨rfl, rest⟩ : left = [] ∧ production.lhs :: right = [g.freshStart] := by
          cases left with
          | nil => exact ⟨rfl, whole.symm⟩
          | cons s left => simp at whole
        obtain ⟨head, rfl⟩ := List.cons_eq_cons.mp rest
        rcases (mem_productions_prepare named).mp mem with rfl | old
        · exact .inr .refl
        · exact absurd (congrArg Symbol.name head) (name_ne_freshStart (lhs_mem_symbols old))
    · exact .inr (before.tail (step.of_prepare named (before.subset_symbols start)))

theorem Productive.prepare (productive : g.Productive) : g.prepare.Productive := by
  intro s mem kind
  have lift : ∀ t ∈ g.symbols, ∃ w : List Symbol, (∀ s ∈ w, s.isTerminal = true) ∧
      g.prepare.Derives [t] w := by
    intro t known
    have single : ∀ s ∈ [t], s.isNonTerminal = true → s ∈ g.symbols := by
      simpa using fun _ => known
    obtain ⟨w, terminals, derives⟩ := productive.exists_derives single
    exact ⟨w, terminals, derives.mono fun _ => productions_subset_prepare named⟩
  rcases (mem_symbols_prepare named).mp mem with rfl | known
  · obtain ⟨w, terminals, derives⟩ := lift g.start start_mem_symbols
    exact ⟨w, terminals, (Derives.of_mem (startProduction_mem_prepare named)).trans derives⟩
  · exact lift s known

end Prepared

end Derivations

end CanonicalLR.Grammar
