import CanonicalLR.Proofs.Grammar.Productions
import CanonicalLR.Proofs.Text.Trimming
import CanonicalLR.Proofs.Traversal

/-!
Reading a grammar line by line. The lines that count keep their numbers; the first one gives the
start symbol, and each later one a rule, on its own. So reading is a traversal of the rules, and what
has been read is the start symbol with the productions of the rules, added one after the other.
-/

set_option autoImplicit false
set_option relaxedAutoImplicit false

namespace CanonicalLR.Grammar

/-- The productions of rules, in order. -/
def productionsOf (rules : List (Symbol × List (List Symbol))) : List Production :=
  rules.flatMap fun rule => rule.2.map fun rhs => ⟨rule.1, rhs⟩

section Content

/-- The lines that count among lines numbered from `n` on. -/
def contentFrom (n : Nat) (lines : List (List Char)) : List (List Char × Nat) :=
  ((lines.map Text.trimEnd).zipIdx n).filter fun line => !line.1.isEmpty

theorem contentLines_eq (text : List Char) : contentLines text = contentFrom 1 (Text.lines text) :=
  rfl

variable {n : Nat} {line : List Char} {lines : List (List Char)}

theorem contentFrom_cons_of_blank (blank : Text.IsBlankText line) :
    contentFrom n (line :: lines) = contentFrom (n + 1) lines := by
  have nothing : Text.trimEnd line = [] := Text.trimEnd_eq_nil_iff.mpr blank
  simp [contentFrom, nothing]

theorem contentFrom_cons (seen : ¬ Text.IsBlankText line) :
    contentFrom n (line :: lines) = (Text.trimEnd line, n) :: contentFrom (n + 1) lines := by
  have something : Text.trimEnd line ≠ [] := fun nothing =>
    seen (Text.trimEnd_eq_nil_iff.mp nothing)
  simp [contentFrom, something]

/-- The lines that count are those that are not blank, without the blank characters at their ends. -/
theorem mem_contentFrom {content : List Char × Nat} : content ∈ contentFrom n lines ↔
    ∃ i line, lines[i]? = some line ∧ ¬ Text.IsBlankText line ∧
      content = (Text.trimEnd line, n + i) := by
  obtain ⟨text, number⟩ := content
  rw [contentFrom, List.mem_filter, List.mk_mem_zipIdx_iff_le_and_getElem?_sub, List.getElem?_map]
  constructor
  · rintro ⟨⟨low, found⟩, something⟩
    obtain ⟨line, here, rfl⟩ := Option.map_eq_some_iff.mp found
    refine ⟨number - n, line, here, fun blank => ?_, ?_⟩
    · simp [Text.trimEnd_eq_nil_iff.mpr blank] at something
    · rw [Nat.add_sub_cancel' low]
  · rintro ⟨i, line, found, seen, same⟩
    obtain ⟨rfl, rfl⟩ := Prod.mk.inj same
    refine ⟨⟨Nat.le_add_right n i, ?_⟩, ?_⟩
    · rw [Nat.add_sub_cancel_left, found]
      rfl
    · simpa [Text.trimEnd_eq_nil_iff] using seen

/-- The numbers ascend. -/
theorem pairwise_contentFrom (n : Nat) (lines : List (List Char)) :
    (contentFrom n lines).Pairwise fun a b => a.2 < b.2 := by
  induction lines generalizing n with
  | nil => exact .nil
  | cons line lines ih =>
    by_cases blank : Text.IsBlankText line
    · rw [contentFrom_cons_of_blank blank]
      exact ih (n + 1)
    · rw [contentFrom_cons blank]
      refine List.pairwise_cons.mpr ⟨fun content mem => ?_, ih (n + 1)⟩
      obtain ⟨i, other, -, -, rfl⟩ := mem_contentFrom.mp mem
      change n < n + 1 + i
      omega

theorem contentFrom_eq_nil_iff :
    contentFrom n lines = [] ↔ ∀ line ∈ lines, Text.IsBlankText line := by
  induction lines generalizing n with
  | nil => simp [contentFrom]
  | cons line lines ih =>
    by_cases blank : Text.IsBlankText line
    · rw [contentFrom_cons_of_blank blank, ih]
      simp [blank]
    · rw [contentFrom_cons blank]
      simp [blank]

theorem contentFrom_append (n : Nat) (first second : List (List Char)) :
    contentFrom n (first ++ second) =
      contentFrom n first ++ contentFrom (n + first.length) second := by
  simp only [contentFrom, List.map_append, List.zipIdx_append, List.filter_append, List.length_map]

/-- Blank lines at the end do not count. -/
theorem contentFrom_append_of_blank {rest : List (List Char)}
    (blank : ∀ line ∈ rest, Text.IsBlankText line) :
    contentFrom n (lines ++ rest) = contentFrom n lines := by
  rw [contentFrom_append, contentFrom_eq_nil_iff.mpr blank, List.append_nil]

/-- Blank lines before others count in the numbers only. -/
theorem contentFrom_append_of_blank_left {first : List (List Char)}
    (blank : ∀ line ∈ first, Text.IsBlankText line) :
    contentFrom n (first ++ lines) = contentFrom (n + first.length) lines := by
  rw [contentFrom_append, contentFrom_eq_nil_iff.mpr blank, List.nil_append]

end Content

section Reading

/-- Whether a piece between spaces is the name of a symbol. -/
def isName (piece : String) : Bool := piece != "" && piece != Symbol.epsilon

/-- The names that stand in an alternative. -/
def namesOf (text : List Char) : List String :=
  ((Text.splitAt ' ' text).map String.ofList).filter isName

theorem readAlternative_eq (text : List Char) :
    readAlternative text = (namesOf text).map Symbol.ofName := rfl

/-- The grammar of lines that count, of which the first one is the start line. -/
def readContent : List (List Char × Nat) → Except ReadError Grammar
  | [] => .error .empty
  | start :: lines => (lines.mapM readRule).map fun rules =>
      ofProductions (.nonTerminal (String.ofList (Text.trim start.1))) (productionsOf rules)

/-- Every line is read on its own, before its productions are added to those so far. -/
private theorem foldlM_readLine (g : Grammar) (lines : List (List Char × Nat)) :
    lines.foldlM readLine g =
      (lines.mapM readRule).map fun rules => g.pushEach (productionsOf rules) := by
  induction lines generalizing g with
  | nil => rfl
  | cons line lines ih =>
    rw [List.foldlM_cons, List.mapM_cons, readLine]
    cases readRule line with
    | error e => rfl
    | ok rule =>
      change lines.foldlM readLine (g.pushAll rule.1 rule.2) = _
      rw [ih]
      cases lines.mapM readRule with
      | error e => rfl
      | ok rules =>
        change Except.ok ((g.pushAll rule.1 rule.2).pushEach (productionsOf rules)) =
          Except.ok (g.pushEach (productionsOf (rule :: rules)))
        rw [pushAll_eq_pushEach, productionsOf, productionsOf, List.flatMap_cons, pushEach_append]

theorem read_eq_readContent (text : String) : read text = readContent (contentLines text.toList) := by
  unfold read
  cases contentLines text.toList with
  | nil => rfl
  | cons start lines => exact foldlM_readLine _ lines

/-- What has been read is the trimmed start line, as a non-terminal, with the productions of the rules
that the other lines are read as. -/
theorem exists_rules_of_read {text : String} {g : Grammar} (h : read text = .ok g) :
    ∃ start lines rules, contentLines text.toList = start :: lines ∧
      lines.mapM readRule = .ok rules ∧
      g = ofProductions (.nonTerminal (String.ofList (Text.trim start.1))) (productionsOf rules) := by
  rw [read_eq_readContent] at h
  cases content : contentLines text.toList with
  | nil =>
    rw [content] at h
    cases h
  | cons start lines =>
    rw [content, readContent] at h
    cases traversal : lines.mapM readRule with
    | error e =>
      rw [traversal] at h
      cases h
    | ok rules =>
      rw [traversal] at h
      exact ⟨start, lines, rules, rfl, traversal, (Except.ok.inj h).symm⟩

theorem isSpelled_of_mapM {lines : List (List Char × Nat)}
    {rules : List (Symbol × List (List Symbol))} (read : lines.mapM readRule = .ok rules) :
    ∀ p ∈ productionsOf rules, IsSpelledProduction p := by
  induction lines generalizing rules with
  | nil =>
    obtain rfl := Except.ok.inj read
    exact nofun
  | cons line lines ih =>
    obtain ⟨rule, more, first, rest, rfl⟩ := exists_of_mapM_cons read
    obtain ⟨head, kind, bodies⟩ := isSpelled_of_readRule first
    intro p mem
    rcases List.mem_append.mp mem with here | mem
    · obtain ⟨rhs, listed, rfl⟩ := List.mem_map.mp here
      exact ⟨⟨head, bodies rhs listed⟩, kind⟩
    · exact ih rest p mem

/-- What has been read is spelled, and starts with a non-terminal. -/
theorem isSpelled_of_read {text : String} {g : Grammar} (h : read text = .ok g) :
    g.IsSpelled ∧ g.start.isNonTerminal = true := by
  obtain ⟨start, lines, rules, -, traversal, rfl⟩ := exists_rules_of_read h
  refine ⟨isSpelled_ofProductions _ (isSpelled_of_mapM traversal), ?_⟩
  rw [start_ofProductions]
  rfl

end Reading

end CanonicalLR.Grammar
