import CanonicalLR.Proofs.Grammar.Lines
import CanonicalLR.Proofs.Grammar.Preparation

/-!
The kinds of the names in a grammar that has been read, and in the one that augmentation makes of it.
The first line gives the start symbol, which is a non-terminal whatever its name shows; everything else
has the kind that its name shows. So a name has two kinds if it is the start symbol's and occurs as a
terminal, and otherwise no name has.
-/

set_option autoImplicit false
set_option relaxedAutoImplicit false

namespace CanonicalLR

namespace Grammar

variable {g : Grammar}

private theorem trim_ne_nil_of_mem_contentLines {text : List Char} {line : List Char × Nat}
    (h : line ∈ contentLines text) : Text.trim line.1 ≠ [] := by
  rw [contentLines_eq] at h
  obtain ⟨i, whole, -, seen, rfl⟩ := mem_contentFrom.mp h
  intro nothing
  have blank := Text.trimEnd_eq_nil_iff.mpr (Text.trim_eq_nil_iff.mp nothing)
  rw [Text.trimEnd_trimEnd] at blank
  exact seen (Text.trimEnd_eq_nil_iff.mp blank)

/-- The start symbol of a grammar that has been read has a name. -/
theorem isEmpty_start_of_read {text : String} (h : read text = .ok g) : g.start.isEmpty = false := by
  obtain ⟨start, lines, rules, content, -, rfl⟩ := exists_rules_of_read h
  have first : start ∈ contentLines text.toList := by
    rw [content]
    exact List.mem_cons_self ..
  have named := trim_ne_nil_of_mem_contentLines first
  simpa [Symbol.isEmpty, Symbol.nonTerminal] using named

/-- With a start symbol whose name shows a non-terminal, a grammar that has been read has one kind for
every name. -/
theorem oneKindPerName_of_read {text : String} (h : read text = .ok g)
    (capital : (Symbol.ofName g.start.name).isNonTerminal = true) : g.OneKindPerName := by
  obtain ⟨spelled, kind⟩ := isSpelled_of_read h
  refine spelled.oneKindPerName ?_
  obtain ⟨⟨name, _⟩, _⟩ := g
  simp only [Symbol.isNonTerminal, beq_iff_eq] at kind capital
  exact congrArg (Symbol.mk name) (kind.trans capital.symm)

section Spelled

variable (spelled : g.IsSpelled) (kind : g.start.isNonTerminal = true)
include spelled kind

/-- Where the start symbol's name does not occur as a terminal, the start symbol has it alone. -/
private theorem eq_start_of_name (absent : Symbol.terminal g.start.name ∉ g.occurrences) {s : Symbol}
    (mem : s ∈ g.symbols) (name : s.name = g.start.name) : s = g.start := by
  rcases List.mem_cons.mp mem with same | mem
  · exact same
  · refine Symbol.distinguishes_nonTerminal _ _ ?_ kind (Symbol.compare_eq_iff_name_eq.mpr name)
    rcases List.mem_append.mp mem with mem | mem
    · obtain ⟨production, here, rfl⟩ := List.mem_map.mp mem
      exact spelled.lhs production here
    · by_contra terminal
      have whole : s = .terminal g.start.name := Symbol.eq_of_name_of_kind name
        (Symbol.isTerminal_iff.mp (by simpa [Symbol.isTerminal_eq_not] using terminal))
      exact absent (whole ▸ mem)

/-- With a non-terminal as start symbol and everything else spelled, no name has two kinds unless the
start symbol's occurs as a terminal. -/
theorem oneKindPerName_iff_of_isSpelled :
    g.OneKindPerName ↔ Symbol.terminal g.start.name ∉ g.occurrences := by
  constructor
  · intro kinds occurs
    have same := kinds _ (occurrences_subset_symbols occurs) _ start_mem_symbols rfl
    rw [← same] at kind
    cases kind
  · intro absent a ha b hb name
    rcases spelled.eq_start_or_isSpelled ha with rfl | left
    · exact (eq_start_of_name spelled kind absent hb name.symm).symm
    · rcases spelled.eq_start_or_isSpelled hb with rfl | right
      · exact eq_start_of_name spelled kind absent ha name
      · rw [left, right, name]

end Spelled

/-- Augmentation leaves a grammar with a named start symbol in the same state. -/
theorem oneKindPerName_augment_iff (named : g.start.isEmpty = false) :
    g.augment.OneKindPerName ↔ g.OneKindPerName := by
  have symbols : ∀ s, s ∈ g.augment.symbols ↔ s = g.freshStart ∨ s ∈ g.symbols := fun s =>
    mem_symbols_prepare named
  refine ⟨fun kinds a ha b hb => ?_, fun kinds => OneKindPerName.prepare named kinds⟩
  exact kinds a ((symbols a).mpr (.inr ha)) b ((symbols b).mpr (.inr hb))

/-- The names of a grammar that has been read, and of the one that augmentation makes of it. Only
non-terminals stand on left-hand sides, and nothing empty in right-hand sides; and no name has two
kinds exactly if that of the start symbol does not occur as a terminal, as it cannot where it shows a
non-terminal. -/
theorem kinds_of_read {text : String} (read : Grammar.read text = .ok g) :
    (∀ h ∈ [g, g.augment], h.LeftHandSidesNonTerminal ∧ (∀ s ∈ h.occurrences, s.isEmpty = false) ∧
      (h.OneKindPerName ↔ Symbol.terminal g.start.name ∉ g.occurrences)) ∧
    ((Symbol.ofName g.start.name).isNonTerminal = true →
      Symbol.terminal g.start.name ∉ g.occurrences) := by
  obtain ⟨spelled, kind⟩ := isSpelled_of_read read
  have named := isEmpty_start_of_read read
  have one := oneKindPerName_iff_of_isSpelled spelled kind
  refine ⟨List.forall_mem_cons.mpr ⟨⟨spelled.lhs, fun _ => isEmpty_of_mem_occurrences, one⟩,
    List.forall_mem_singleton.mpr ⟨LeftHandSidesNonTerminal.prepare named spelled.lhs,
      fun _ => isEmpty_of_mem_occurrences, (oneKindPerName_augment_iff named).trans one⟩⟩,
    fun capital => one.mp (oneKindPerName_of_read read capital)⟩

/-- Digits from the right, where every name has one kind. -/
def digits : Grammar :=
  (Grammar.ofStart (.nonTerminal "N")).pushAll (.nonTerminal "N")
    [[.terminal "d", .nonTerminal "N"], [.terminal "d"]]

theorem kinds_of_read_digits : Grammar.read "N\nN -> d N | d" = .ok digits ∧
    (Symbol.ofName digits.start.name).isNonTerminal = true ∧
    digits.OneKindPerName ∧ digits.augment.OneKindPerName := by
  have read : Grammar.read "N\nN -> d N | d" = .ok digits := by decide +kernel
  have capital : (Symbol.ofName digits.start.name).isNonTerminal = true := by decide +kernel
  obtain ⟨kinds, shown⟩ := kinds_of_read read
  obtain ⟨⟨_, _, one⟩, ⟨_, _, one'⟩, _⟩ := List.forall_mem_cons.mp kinds |>.imp_right
    List.forall_mem_cons.mp
  exact ⟨read, capital, one.mpr (shown capital), one'.mpr (shown capital)⟩

/-- The first line may show a terminal, which `E -> e` then uses as one. -/
theorem not_oneKindPerName_of_read : ∃ g, Grammar.read "e\nE -> e" = .ok g ∧
    g.start = .nonTerminal "e" ∧ .terminal "e" ∈ g.occurrences ∧
    ¬ g.OneKindPerName ∧ ¬ g.augment.OneKindPerName := by
  refine ⟨(Grammar.ofStart (.nonTerminal "e")).push (.nonTerminal "E") [.terminal "e"],
    by decide +kernel, rfl, ?_, by decide +kernel, by decide +kernel⟩
  exact mem_occurrences.mpr
    ⟨⟨.nonTerminal "E", [.terminal "e"]⟩, by decide +kernel, List.mem_singleton_self _⟩

end Grammar

end CanonicalLR
