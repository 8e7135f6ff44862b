import CanonicalLR.Proofs.Grammar.FirstTable
import CanonicalLR.Proofs.Grammar.Preparation

/-!
FIRST sets are exact. What is in FIRST of a string is the first symbol of a string derived from it,
or the empty symbol if it derives the empty string (`begins_of_mem_ofString`); and what a derived
string begins with, the string itself begins with (`mem_ofString_of_derives`).
-/

set_option autoImplicit false
set_option relaxedAutoImplicit false

namespace CanonicalLR.Grammar

variable {g : Grammar}

/-- A string derives one that begins with the symbol or, for the empty symbol, the empty string. -/
def Begins (g : Grammar) (string : List Symbol) (a : Symbol) : Prop :=
  (a = .empty ∧ g.Derives string []) ∨ (a ≠ .empty ∧ ∃ rest, g.Derives string (a :: rest))

namespace Begins

theorem self {a : Symbol} (visible : a ≠ .empty) : g.Begins [a] a := .inr ⟨visible, [], .refl⟩

theorem of_derives {u v : List Symbol} {a : Symbol} (derives : g.Derives u v)
    (begins : g.Begins v a) : g.Begins u a := by
  rcases begins with ⟨empty, rest⟩ | ⟨visible, rest, more⟩
  · exact .inl ⟨empty, derives.trans rest⟩
  · exact .inr ⟨visible, rest, derives.trans more⟩

theorem append_left {u : List Symbol} {a : Symbol} (begins : g.Begins u a) (visible : a ≠ .empty)
    (v : List Symbol) : g.Begins (u ++ v) a := by
  rcases begins with ⟨empty, _⟩ | ⟨_, rest, derives⟩
  · exact absurd empty visible
  · exact .inr ⟨visible, rest ++ v, derives.concat .refl⟩

theorem append_right {u v : List Symbol} {a : Symbol} (nullable : g.Begins u .empty)
    (begins : g.Begins v a) : g.Begins (u ++ v) a := by
  rcases nullable with ⟨_, derives⟩ | ⟨visible, _⟩
  · exact begins.of_derives (derives.concat .refl)
  · exact absurd rfl visible

end Begins

/-- Derivations do not depend on the FIRST sets. -/
theorem derives_computeFirst {u v : List Symbol} : g.computeFirst.Derives u v ↔ g.Derives u v :=
  ⟨@Derives.mono g.computeFirst g (fun _ mem => mem) u v,
    @Derives.mono g g.computeFirst (fun _ mem => mem) u v⟩

theorem holdsTerminals_firstTable (g : Grammar) : g.computeFirst.firstTable.HoldsTerminals := by
  intro s first found a mem
  rw [firstTable_computeFirst, SymbolMap.find?_set] at found
  split at found
  · cases found
    rw [OrderedSet.mem_singleton.mp mem]
    rfl
  · exact isFilled_settledTable.holdsTerminals s first found a mem

theorem find?_endMark (g : Grammar) :
    g.computeFirst.firstTable.find? .endMark = some (.singleton .endMark) := by
  rw [firstTable_computeFirst, SymbolMap.find?_set]
  rfl

/-- Other entries than that of the end mark are those after the rounds. -/
theorem find?_firstTable {s : Symbol} (h : s.isEndMark = false) :
    g.computeFirst.firstTable.find? s = g.settledTable.find? s := by
  have different : (s == Symbol.endMark) = false := h
  rw [firstTable_computeFirst, SymbolMap.find?_set, different]
  rfl

section Disciplined

variable (lhs : g.LeftHandSidesNonTerminal) (kinds : g.OneKindPerName)
include lhs kinds

private theorem name_ne_of_mem_terminals {t A : Symbol} (ht : t ∈ g.terminals)
    (hA : A ∈ g.nonTerminals) : t.name ≠ A.name := by
  intro same
  obtain ⟨occurs, terminal⟩ := mem_terminals.mp ht
  have nonTerminal := isNonTerminal_of_mem_nonTerminals lhs hA
  have inside : A ∈ g.symbols := nonTerminals_subset_symbols lhs hA
  rw [← kinds t (occurrences_subset_symbols occurs) A inside same,
    Symbol.isNonTerminal_iff] at nonTerminal
  rw [Symbol.isTerminal_iff, nonTerminal] at terminal
  cases terminal

omit kinds in
private theorem lhs_mem_nonTerminals {production : Production} (mem : production ∈ g.productions) :
    production.lhs ∈ g.nonTerminals :=
  (mem_nonTerminals lhs).mpr (.inl ⟨production, mem, rfl⟩)

theorem find?_settledTable_terminal {t : Symbol} (ht : t ∈ g.terminals) :
    g.settledTable.find? t = some (.singleton t) := by
  refine settledTable_induction (Q := fun table => table.find? t = some (.singleton t)) ?_ ?_
  · have entry : (t, OrderedSet.singleton t) ∈
        g.terminals.toList.map fun a => (a, OrderedSet.singleton a) := List.mem_map_of_mem ht
    obtain ⟨first, found⟩ : ∃ first, g.seedTable.find? t = some first :=
      SymbolMap.exists_find?_ofList (List.mem_append_left _ (List.mem_append_left _ entry)) rfl
    rw [found]
    rcases find?_seedTable found with ⟨u, hu, name, rfl⟩ | ⟨A, hA, name, _⟩ | ⟨name, _⟩
    · have same : t = u := Symbol.distinguishes_terminal t u (mem_terminals.mp ht).2
        (mem_terminals.mp hu).2 (Symbol.compare_eq_iff_name_eq.mpr name)
      rw [same]
    · exact absurd name (name_ne_of_mem_terminals lhs kinds ht hA)
    · have visible := isEmpty_of_mem_occurrences (mem_terminals.mp ht).1
      exact absurd name (beq_eq_false_iff_ne.mp visible)
  · intro table production mem before
    have different : (t == production.lhs) = false := by
      rw [← Bool.not_eq_true, Symbol.beq_iff_name_eq]
      exact name_ne_of_mem_terminals lhs kinds ht (lhs_mem_nonTerminals lhs mem)
    rw [FirstTable.find?_apply, different]
    exact before

/-- The set of a terminal holds the terminal, as does that of the end mark. -/
theorem find?_firstTable_terminal {t : Symbol} (ht : g.IsLookahead t) :
    g.computeFirst.firstTable.find? t = some (.singleton t) := by
  rcases ht with ht | rfl
  · by_cases mark : t.isEndMark = true
    · rw [Symbol.eq_endMark_of_isEndMark (mem_terminals.mp ht).2 mark]
      exact find?_endMark g
    · rw [find?_firstTable (by simpa using mark)]
      exact find?_settledTable_terminal lhs kinds ht
  · exact find?_endMark g

/-- Where the end mark is not a non-terminal, the entries of the grammar's symbols are those after the
rounds. -/
private theorem find?_firstTable_of_mem (marks : g.EndMarkIsTerminal) {production : Production}
    (mem : production ∈ g.productions) {s : Symbol} (hs : s = production.lhs ∨ s ∈ production.rhs) :
    g.computeFirst.firstTable.find? s = g.settledTable.find? s := by
  by_cases mark : s.isEndMark = true
  · have inside : s ∈ g.symbols := by
      rcases hs with rfl | hs
      · exact lhs_mem_symbols mem
      · exact rhs_subset_symbols mem hs
    have terminal : s.isTerminal = true := by
      rw [Symbol.isTerminal_eq_not, Bool.not_eq_true']
      by_contra kind
      rw [marks s inside (by simpa using kind)] at mark
      cases mark
    have listed : s ∈ g.terminals := by
      refine mem_terminals.mpr ⟨?_, terminal⟩
      rcases hs with rfl | hs
      · rw [Symbol.isTerminal_eq_not, lhs production mem] at terminal
        cases terminal
      · exact mem_occurrences.mpr ⟨production, mem, hs⟩
    rw [find?_firstTable_terminal lhs kinds (.inl listed),
      find?_settledTable_terminal lhs kinds listed]
  · exact find?_firstTable (by simpa using mark)

/-- The entries of a table hold only what their symbols begin with. -/
private def SoundTable (g : Grammar) (table : FirstTable) : Prop :=
  ∀ s ∈ g.symbols, s.isEmpty = false → ∀ first, table.find? s = some first →
    ∀ a ∈ first, g.Begins [s] a

omit lhs kinds in
private theorem begins_of_mem {table : FirstTable} (holds : table.HoldsTerminals)
    {string : List Symbol} (sound : ∀ s ∈ string, ∀ first, table.find? s = some first →
      ∀ a ∈ first, g.Begins [s] a) {a : Symbol} (h : a ∈ table.ofString string) :
    g.Begins string a := by
  induction string with
  | nil => exact .inl ⟨FirstTable.mem_ofString_nil.mp h, .refl⟩
  | cons s string ih =>
    simp only [List.forall_mem_cons] at sound
    cases found : table.find? s with
    | none => exact absurd h (FirstTable.not_mem_ofString_of_none found)
    | some first =>
      rcases (FirstTable.mem_ofString_cons holds found).mp h with ⟨mem, visible⟩ | ⟨empty, rest⟩
      · exact (sound.1 first found a mem).append_left visible string
      · exact (sound.1 first found _ empty).append_right (ih sound.2 rest)

omit lhs in
private theorem soundTable_seedTable : SoundTable g g.seedTable := by
  intro s mem visible first found a ha
  rcases find?_seedTable found with ⟨t, ht, name, rfl⟩ | ⟨A, _, _, rfl⟩ | ⟨name, _⟩
  · obtain ⟨occurs, _⟩ := mem_terminals.mp ht
    obtain rfl := kinds s mem t (occurrences_subset_symbols occurs) name
    obtain rfl := OrderedSet.mem_singleton.mp ha
    refine Begins.self ?_
    rintro rfl
    cases visible
  · cases ha
  · exact absurd name (beq_eq_false_iff_ne.mp visible)

omit lhs in
private theorem SoundTable.apply {table : FirstTable} (filled : g.IsFilled table)
    (sound : SoundTable g table) {production : Production} (mem : production ∈ g.productions) :
    SoundTable g (table.apply production) := by
  intro s hs visible first found a ha
  rw [FirstTable.find?_apply] at found
  split at found
  · next name =>
    obtain rfl := kinds s hs _ (lhs_mem_symbols mem) (Symbol.beq_iff_name_eq.mp name)
    cases found
    rcases OrderedSet.mem_or_mem_of_mem_insertAll ha with old | new
    · cases entry : table.find? production.lhs with
      | none =>
        rw [entry] at old
        cases old
      | some before =>
        rw [entry] at old
        exact sound _ hs visible before entry a old
    · have body : g.Begins production.rhs a := begins_of_mem filled.holdsTerminals
        (fun t ht => sound t (rhs_subset_symbols mem ht) (g.visible production mem t ht)) new
      exact body.of_derives (.of_mem mem)
  · exact sound s hs visible first found a ha

omit lhs in
private theorem soundTable_settledTable : SoundTable g g.settledTable := by
  have both : g.IsFilled g.settledTable ∧ SoundTable g g.settledTable :=
    settledTable_induction (Q := fun table => g.IsFilled table ∧ SoundTable g table)
      ⟨isFilled_seedTable, soundTable_seedTable kinds⟩
      fun _ p mem before => ⟨before.1.apply p, before.2.apply kinds before.1 mem⟩
  exact both.2

/-- A symbol that FIRST can be asked about: one of the grammar's or the end mark. -/
def IsKnown (g : Grammar) (s : Symbol) : Prop :=
  (s ∈ g.symbols ∧ s.isEmpty = false ∧ s.isEndMark = false) ∨ s = .endMark

omit lhs in
/-- What is in FIRST of a string, the string begins with. -/
theorem begins_of_mem_ofString {string : List Symbol}
    (known : ∀ s ∈ string, g.IsKnown s) {a : Symbol}
    (h : a ∈ g.computeFirst.firstTable.ofString string) : g.Begins string a := by
  refine begins_of_mem (holdsTerminals_firstTable g) (fun s hs first found b hb => ?_) h
  rcases known s hs with ⟨mem, visible, other⟩ | rfl
  · rw [find?_firstTable other] at found
    exact soundTable_settledTable kinds s mem visible first found b hb
  · rw [find?_endMark] at found
    cases found
    rw [OrderedSet.mem_singleton.mp hb]
    exact Begins.self (by decide)

private theorem mem_ofString_lhs (marks : g.EndMarkIsTerminal) {production : Production}
    (mem : production ∈ g.productions) {a : Symbol}
    (h : a ∈ g.computeFirst.firstTable.ofString production.rhs) :
    a ∈ g.computeFirst.firstTable.ofString [production.lhs] := by
  have same : g.computeFirst.firstTable.ofString production.rhs =
      g.settledTable.ofString production.rhs := FirstTable.ofString_congr fun s hs =>
    find?_firstTable_of_mem lhs kinds marks mem (.inr hs)
  obtain ⟨first, found⟩ := isFilled_settledTable.entries production mem
  have here : a ∈ first := by
    have entry := FirstTable.find?_apply g.settledTable production production.lhs
    rw [apply_settledTable mem, found, if_pos (Symbol.beq_iff_name_eq.mpr rfl)] at entry
    rw [Option.some.inj entry]
    refine OrderedSet.mem_of_contains Symbol.distinguishes_terminal (fun b hb => ?_) ?_
      (OrderedSet.contains_insertAll.mpr (.inr ⟨a, same ▸ h, Std.ReflCmp.compare_self⟩))
    · rcases OrderedSet.mem_or_mem_of_mem_insertAll hb with hb | hb
      · exact isFilled_settledTable.holdsTerminals _ first found b hb
      · exact FirstTable.isTerminal_of_mem_ofString isFilled_settledTable.holdsTerminals hb
    · exact FirstTable.isTerminal_of_mem_ofString (holdsTerminals_firstTable g) h
  rw [← find?_firstTable_of_mem lhs kinds marks mem (.inl rfl)] at found
  exact (FirstTable.mem_ofString_singleton (holdsTerminals_firstTable g) found).mpr here

/-- What a derived string begins with by FIRST, the string it is derived from begins with. -/
theorem mem_ofString_of_derives (marks : g.EndMarkIsTerminal) {u v : List Symbol}
    (derives : g.Derives u v) {a : Symbol} (h : a ∈ g.computeFirst.firstTable.ofString v) :
    a ∈ g.computeFirst.firstTable.ofString u := by
  have holds := holdsTerminals_firstTable g
  induction derives with
  | refl => exact h
  | tail _ step ih =>
    refine ih ?_
    cases step with
    | replace mem left right =>
      have head : ∀ b, b ∈ g.computeFirst.firstTable.ofString _ →
          b ∈ g.computeFirst.firstTable.ofString _ := fun b =>
        mem_ofString_lhs lhs kinds marks mem (a := b)
      rw [List.append_assoc, FirstTable.mem_ofString_append holds,
        FirstTable.mem_ofString_append holds] at h
      rw [← List.singleton_append, FirstTable.mem_ofString_append holds,
        FirstTable.mem_ofString_append holds]
      rcases h with left | ⟨nullable, body | rest⟩
      · exact .inl left
      · exact .inr ⟨nullable, .inl ⟨head a body.1, body.2⟩⟩
      · exact .inr ⟨nullable, .inr ⟨head _ rest.1, rest.2⟩⟩

/-- A string that begins with a terminal of the grammar or the end mark begins with it by FIRST. -/
theorem mem_ofString_terminal {t : Symbol}
    (ht : g.IsLookahead t) (string : List Symbol) :
    t ∈ g.computeFirst.firstTable.ofString (t :: string) := by
  have visible : t ≠ .empty := by
    rcases ht with ht | rfl
    · rintro rfl
      cases isEmpty_of_mem_occurrences (mem_terminals.mp ht).1
    · decide
  rw [FirstTable.mem_ofString_cons (holdsTerminals_firstTable g)
    (find?_firstTable_terminal lhs kinds ht)]
  exact .inl ⟨OrderedSet.mem_singleton.mpr rfl, visible⟩

/-- A terminal is in FIRST of a string of the grammar's symbols and the end mark exactly if the string
begins with it. -/
private theorem mem_ofString_iff (marks : g.EndMarkIsTerminal)
    (visible : ∀ A ∈ g.nonTerminals, A.isEmpty = false) {string : List Symbol}
    (inside : ∀ s ∈ string, g.IsLookahead s ∨ s ∈ g.nonTerminals) {a : Symbol} :
    a ∈ g.computeFirst.firstTable.ofString string ↔ a.isTerminal = true ∧ g.Begins string a := by
  have known : ∀ s ∈ string, g.IsKnown s := by
    intro s hs
    rcases inside s hs with (terminal | mark) | nonTerminal
    · obtain ⟨occurs, kind⟩ := mem_terminals.mp terminal
      by_cases mark : s.isEndMark = true
      · exact .inr (Symbol.eq_endMark_of_isEndMark kind mark)
      · exact .inl ⟨occurrences_subset_symbols occurs, isEmpty_of_mem_occurrences occurs,
          by simpa using mark⟩
    · exact .inr mark
    · have mem : s ∈ g.symbols := nonTerminals_subset_symbols lhs nonTerminal
      exact .inl ⟨mem, visible s nonTerminal,
        marks s mem (isNonTerminal_of_mem_nonTerminals lhs nonTerminal)⟩
  constructor
  · intro mem
    exact ⟨FirstTable.isTerminal_of_mem_ofString (holdsTerminals_firstTable g) mem,
      begins_of_mem_ofString kinds known mem⟩
  · rintro ⟨terminal, ⟨rfl, derives⟩ | ⟨_, rest, derives⟩⟩
    · exact mem_ofString_of_derives lhs kinds marks derives (FirstTable.mem_ofString_nil.mpr rfl)
    · have lookahead : g.IsLookahead a := by
        rcases derives.mem_or_occurs (List.mem_cons_self ..) with here | occurs
        · rcases inside a here with lookahead | nonTerminal
          · exact lookahead
          · have kind := isNonTerminal_of_mem_nonTerminals lhs nonTerminal
            rw [Symbol.isTerminal_eq_not, kind] at terminal
            cases terminal
        · exact .inl (mem_terminals.mpr ⟨occurs, terminal⟩)
      exact mem_ofString_of_derives lhs kinds marks derives
        (mem_ofString_terminal lhs kinds lookahead rest)

end Disciplined

section Exactness

/-- The grammar with the end mark for its start symbol. Neither derivations nor FIRST sets look at the
start symbol, so nothing need be asked of its name. -/
private def startless (g : Grammar) : Grammar := { g with start := .endMark }

private theorem begins_startless {string : List Symbol} {a : Symbol} :
    g.startless.Begins string a ↔ g.Begins string a := by
  have same : ∀ v, g.startless.Derives string v ↔ g.Derives string v := fun v =>
    ⟨@Derives.mono g.startless g (fun _ mem => mem) string v,
      @Derives.mono g g.startless (fun _ mem => mem) string v⟩
  simp only [Begins, same]

variable (lhs : g.LeftHandSidesNonTerminal)
include lhs

private theorem cases_of_mem_symbols_startless {s : Symbol} (mem : s ∈ g.startless.symbols) :
    g.IsLookahead s ∨ s ∈ g.nonTerminals := by
  rcases List.mem_cons.mp mem with rfl | mem
  · exact .inl (.inr rfl)
  · rcases List.mem_append.mp mem with head | occurs
    · obtain ⟨production, here, rfl⟩ := List.mem_map.mp head
      exact .inr (lhs_mem_nonTerminals lhs here)
    · by_cases kind : s.isTerminal = true
      · exact .inl (.inl (mem_terminals.mpr ⟨occurs, kind⟩))
      · rw [Symbol.isTerminal_eq_not, Bool.not_eq_true', Bool.not_eq_false] at kind
        exact .inr ((mem_nonTerminals lhs).mpr (.inr ⟨occurs, kind⟩))

private theorem oneKindPerName_startless
    (kinds : ∀ t ∈ g.terminals, ∀ A ∈ g.nonTerminals, t.name ≠ A.name)
    (marks : ∀ A ∈ g.nonTerminals, A.isEndMark = false) : g.startless.OneKindPerName := by
  have apart : ∀ t, g.IsLookahead t → ∀ A ∈ g.nonTerminals, t.name ≠ A.name := by
    rintro t (ht | rfl) A hA name
    · exact kinds t ht A hA name
    · have mark : A.isEndMark = true := beq_iff_eq.mpr name.symm
      rw [marks A hA] at mark
      cases mark
  intro a ha b hb name
  rcases cases_of_mem_symbols_startless lhs ha with ta | na <;>
    rcases cases_of_mem_symbols_startless lhs hb with tb | nb
  · exact Symbol.distinguishes_terminal a b ta.isTerminal tb.isTerminal
      (Symbol.compare_eq_iff_name_eq.mpr name)
  · exact absurd name (apart a ta b nb)
  · exact absurd name.symm (apart b tb a na)
  · exact Symbol.distinguishes_nonTerminal a b (isNonTerminal_of_mem_nonTerminals lhs na)
      (isNonTerminal_of_mem_nonTerminals lhs nb) (Symbol.compare_eq_iff_name_eq.mpr name)

private theorem endMarkIsTerminal_startless
    (marks : ∀ A ∈ g.nonTerminals, A.isEndMark = false) : g.startless.EndMarkIsTerminal := by
  intro s mem kind
  rcases cases_of_mem_symbols_startless lhs mem with lookahead | nonTerminal
  · have terminal := lookahead.isTerminal
    rw [Symbol.isTerminal_eq_not, kind] at terminal
    cases terminal
  · exact marks s nonTerminal

/-- FIRST is exact. The rounds come to their end. The set of a terminal and of the end mark holds that
symbol; the set of a non-terminal holds the terminals that strings derived from it begin with, and
the empty symbol if it derives the empty string; so does FIRST of a string of the grammar's symbols
and the end mark. -/
theorem mem_first_iff_begins
    (kinds : ∀ t ∈ g.terminals, ∀ A ∈ g.nonTerminals, t.name ≠ A.name)
    (marks : ∀ A ∈ g.nonTerminals, A.isEndMark = false)
    (visible : ∀ A ∈ g.nonTerminals, A.isEmpty = false) :
    (∃ (rounds : Nat) (table : FirstTable),
      table = (FirstTable.round g.productions.toList)^[rounds] g.seedTable ∧
      table.round g.productions.toList = table ∧
      g.computeFirst.firstTable = table.set .endMark (.singleton .endMark)) ∧
    (∀ t, t ∈ g.terminals ∨ t = .endMark →
      g.computeFirst.firstTable.find? t = some (.singleton t)) ∧
    (∀ A ∈ g.nonTerminals, ∃ first, g.computeFirst.firstTable.find? A = some first ∧
      ∀ a, a ∈ first ↔ a.isTerminal = true ∧ g.Begins [A] a) ∧
    ∀ string, string ≠ [] →
      (∀ s ∈ string, s ∈ g.terminals ∨ s ∈ g.nonTerminals ∨ s = .endMark) →
      ∀ a, a ∈ g.computeFirst.first string ↔ a.isTerminal = true ∧ g.Begins string a := by
  have kinds' : g.startless.OneKindPerName := oneKindPerName_startless lhs kinds marks
  have marks' : g.startless.EndMarkIsTerminal := endMarkIsTerminal_startless lhs marks
  have exact_ofString : ∀ string, (∀ s ∈ string, g.IsLookahead s ∨ s ∈ g.nonTerminals) → ∀ a,
      a ∈ g.computeFirst.firstTable.ofString string ↔ a.isTerminal = true ∧ g.Begins string a := by
    intro string inside a
    rw [← begins_startless]
    exact mem_ofString_iff (g := g.startless) lhs kinds' marks' visible inside
  refine ⟨?_, fun t ht => find?_firstTable_terminal (g := g.startless) lhs kinds' ht, ?_, ?_⟩
  · obtain ⟨⟨rounds, reached⟩, settled⟩ := g.round_settledTable
    exact ⟨rounds, g.settledTable, reached, settled, g.firstTable_computeFirst⟩
  · intro A hA
    obtain ⟨first, found⟩ := exists_find?_settledTable hA
    rw [← find?_firstTable (marks A hA)] at found
    refine ⟨first, found, fun a => ?_⟩
    rw [← FirstTable.mem_ofString_singleton (holdsTerminals_firstTable g) found]
    exact exact_ofString [A] (by simpa using .inr hA) a
  · intro string nonempty inside a
    have whole : g.computeFirst.first string = g.computeFirst.firstTable.ofString string := by
      rw [first, if_neg (by simpa using nonempty)]
    rw [whole]
    refine exact_ofString string (fun s hs => ?_) a
    rcases inside s hs with terminal | nonTerminal | mark
    · exact .inl (.inl terminal)
    · exact .inr nonTerminal
    · exact .inl (.inr mark)

omit lhs in
/-- Left recursion, empty productions and a non-terminal that derives no string of terminals. -/
def nested : Grammar :=
  (((ofStart (.nonTerminal "S")).pushAll (.nonTerminal "S")
    [[.nonTerminal "A", .nonTerminal "S", .terminal "b"], []]).pushAll (.nonTerminal "A")
      [[.nonTerminal "A", .terminal "a"], [.nonTerminal "U"], []]).pushAll (.nonTerminal "U")
        [[.nonTerminal "U", .terminal "u"]]

omit lhs in
/-- What stands before `b` in `A S b` can be empty, and nothing derived from `U` begins with `u`. -/
theorem mem_first_nested : nested.LeftHandSidesNonTerminal ∧
    (∀ t ∈ nested.terminals, ∀ A ∈ nested.nonTerminals, t.name ≠ A.name) ∧
    (∀ A ∈ nested.nonTerminals, A.isEndMark = false) ∧
    (∀ A ∈ nested.nonTerminals, A.isEmpty = false) ∧
    (∃ rest, nested.Derives [.nonTerminal "S"] (.terminal "b" :: rest)) ∧
    ¬ ∃ rest, nested.Derives [.nonTerminal "U"] (.terminal "u" :: rest) := by
  have lhs : nested.LeftHandSidesNonTerminal := by decide +kernel
  have kinds : ∀ t ∈ nested.terminals.toList, ∀ A ∈ nested.nonTerminals.toList,
      t.name ≠ A.name := by decide +kernel
  have marks : ∀ A ∈ nested.nonTerminals.toList, A.isEndMark = false := by decide +kernel
  have visible : ∀ A ∈ nested.nonTerminals.toList, A.isEmpty = false := by decide +kernel
  have inside : ∀ A ∈ nested.nonTerminals, ∀ s ∈ [A],
      s ∈ nested.terminals ∨ s ∈ nested.nonTerminals ∨ s = .endMark := fun A hA s hs =>
    .inr (.inl (List.mem_singleton.mp hs ▸ hA))
  have strings := (mem_first_iff_begins lhs kinds marks visible).2.2.2
  have ofS := strings [.nonTerminal "S"] nofun (inside _ (by decide +kernel)) (.terminal "b")
  have ofU := strings [.nonTerminal "U"] nofun (inside _ (by decide +kernel)) (.terminal "u")
  refine ⟨lhs, kinds, marks, visible, ?_, fun derives => ?_⟩
  · obtain ⟨_, ⟨empty, _⟩ | ⟨_, derives⟩⟩ := ofS.mp (by decide +kernel)
    · exact absurd empty (by decide)
    · exact derives
  · have absent : Symbol.terminal "u" ∉ nested.computeFirst.first [.nonTerminal "U"] := by
      decide +kernel
    exact absent (ofU.mpr ⟨rfl, .inr ⟨by decide, derives⟩⟩)

end Exactness

end CanonicalLR.Grammar
