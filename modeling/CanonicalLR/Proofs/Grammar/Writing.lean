import CanonicalLR.Grammar.Text
import CanonicalLR.Proofs.Grammar.Faults

/-!
Reading what has been written. Names that hold no blank character, and are not mistaken for a mark,
come back from a text as they are, and so do alternatives, rules and whole grammars; into which rules
the productions are grouped, and in which order they stand, does not count.
-/

set_option autoImplicit false
set_option relaxedAutoImplicit false

namespace CanonicalLR

namespace Text

/-- A text of one or more characters, none of them blank. -/
def IsWord (text : List Char) : Prop := text ≠ [] ∧ ∀ c ∈ text, isBlank c = false

instance (text : List Char) : Decidable (IsWord text) :=
  decidable_of_iff (text ≠ [] ∧ text.all (!isBlank ·) = true) (by simp [IsWord])

theorem IsWord.not_mem {word : List Char} (h : IsWord word) {c : Char} (blank : isBlank c = true) :
    c ∉ word := fun mem => by
  rw [h.2 c mem] at blank
  cases blank

theorem IsWord.not_blank {word : List Char} (h : IsWord word) : ¬ IsBlankText word := fun blank => by
  obtain ⟨c, others, rfl⟩ := List.exists_cons_of_ne_nil h.1
  have first := List.mem_cons_self (a := c) (l := others)
  exact h.not_mem (blank c first) first

/-- A word at the end of a text is not trimmed. -/
theorem trimEnd_append_word (front : List Char) {word : List Char} (h : IsWord word) :
    trimEnd (front ++ word) = front ++ word := by
  obtain ⟨others, last, rfl⟩ := List.eq_nil_or_concat word |>.resolve_left h.1
  rw [List.concat_eq_append, ← List.append_assoc]
  exact trimEnd_append_cons _ [] (h.2 last (by simp))

end Text

namespace Grammar

/-- A name that can stand in a text for itself. -/
def IsToken (name : String) : Prop :=
  name ≠ "" ∧ (∀ c ∈ name.toList, Text.isBlank c = false) ∧ name ≠ Symbol.epsilon ∧ name ≠ "|"

instance (name : String) : Decidable (IsToken name) :=
  decidable_of_iff (Text.IsWord name.toList ∧ name ≠ Symbol.epsilon ∧ name ≠ "|")
    (by simp [IsToken, Text.IsWord, and_assoc])

/-- Rules have one or more alternatives each, and together just the given productions, in any
grouping and order and with any repetitions. -/
structure IsGrouping (rules : List (Symbol × List (List Symbol))) (productions : List Production) :
    Prop where
  nonempty : ∀ rule ∈ rules, rule.2 ≠ []
  written : Covers productions (productionsOf rules)
  covered : Covers (productionsOf rules) productions

theorem IsToken.isWord {name : String} (h : IsToken name) : Text.IsWord name.toList :=
  ⟨fun nothing => h.1 (String.toList_eq_nil_iff.mp nothing), h.2.1⟩

/-- The words of an alternative. -/
private def wordsOf (rhs : List Symbol) : List (List Char) :=
  if rhs.isEmpty then [Symbol.epsilon.toList] else rhs.map (·.name.toList)

section Alternative

variable {rhs : List Symbol} (tokens : ∀ s ∈ rhs, IsToken s.name)
include tokens

private theorem toList_writeAlternative :
    (writeAlternative rhs).toList = List.intercalate [' '] (wordsOf rhs) := by
  have names : rhs.map Symbol.render = rhs.map (·.name) := List.map_congr_left fun s mem => by
    simp [Symbol.render, Symbol.isEmpty, (tokens s mem).1]
  rw [writeAlternative, renderSymbols, String.toList_intercalate, wordsOf]
  cases rhs with
  | nil => rfl
  | cons s rest =>
    simp only [List.isEmpty_cons, Bool.false_eq_true, if_false]
    rw [names, List.map_map]
    rfl

private theorem isWord_of_mem_wordsOf {word : List Char} (mem : word ∈ wordsOf rhs) :
    Text.IsWord word ∧ word ≠ ['|'] := by
  unfold wordsOf at mem
  split at mem
  · obtain rfl := List.mem_singleton.mp mem
    exact ⟨by decide, by decide⟩
  · obtain ⟨s, here, rfl⟩ := List.mem_map.mp mem
    refine ⟨(tokens s here).isWord, fun bar => (tokens s here).2.2.2 ?_⟩
    rw [← String.ofList_toList (s := s.name), bar]

private theorem plain_wordsOf : ['|'] ∉ wordsOf rhs ∧ ∀ word ∈ wordsOf rhs, ' ' ∉ word :=
  ⟨fun mem => (isWord_of_mem_wordsOf tokens mem).2 rfl,
    fun _ mem => (isWord_of_mem_wordsOf tokens mem).1.not_mem (by decide)⟩

omit tokens in
private theorem wordsOf_ne_nil (rhs : List Symbol) : wordsOf rhs ≠ [] := by
  unfold wordsOf
  split
  · exact List.cons_ne_nil _ _
  · next something => simpa using something

/-- The names of an alternative come back from its words, also with spaces before them. -/
private theorem namesOf_intercalate (before : List (List Char)) (blank : ∀ word ∈ before, word = []) :
    namesOf (List.intercalate [' '] (before ++ wordsOf rhs)) = rhs.map (·.name) := by
  have pieces : Text.splitAt ' ' (List.intercalate [' '] (before ++ wordsOf rhs)) =
      before ++ wordsOf rhs := by
    refine Text.splitAt_intercalate (by simp [wordsOf_ne_nil rhs]) fun word mem => ?_
    rcases List.mem_append.mp mem with mem | mem
    · rw [blank word mem]
      exact List.not_mem_nil
    · exact (plain_wordsOf tokens).2 word mem
  have nothing : (before.map String.ofList).filter isName = [] := by
    refine List.filter_eq_nil_iff.mpr fun name mem => ?_
    obtain ⟨word, here, rfl⟩ := List.mem_map.mp mem
    rw [blank word here]
    decide
  have names : ((wordsOf rhs).map String.ofList).filter isName = rhs.map (·.name) := by
    unfold wordsOf
    split
    · next empty =>
      rw [List.isEmpty_iff.mp empty]
      decide
    · have same : (rhs.map (·.name.toList)).map String.ofList = rhs.map (·.name) := by
        rw [List.map_map]
        exact List.map_congr_left fun s _ => String.ofList_toList
      rw [same]
      refine List.filter_eq_self.mpr fun name mem => ?_
      obtain ⟨s, here, rfl⟩ := List.mem_map.mp mem
      simp [isName, (tokens s here).1, (tokens s here).2.2.1]
  rw [namesOf, pieces, List.map_append, List.filter_append, nothing, List.nil_append, names]

/-- An alternative comes back if its symbols have the kinds that their names show. -/
private theorem readAlternative_intercalate (spelled : ∀ s ∈ rhs, s.IsSpelled)
    (before : List (List Char)) (blank : ∀ word ∈ before, word = []) :
    readAlternative (List.intercalate [' '] (before ++ wordsOf rhs)) = rhs := by
  rw [readAlternative_eq, namesOf_intercalate tokens before blank, List.map_map]
  conv_rhs => rw [← List.map_id rhs]
  exact List.map_congr_left fun s mem => (spelled s mem).symm

end Alternative

/-- A space before the first alternative makes it begin with an empty word. -/
private theorem cons_intercalate_words (first : List Symbol) (others : List (List Symbol)) :
    ' ' :: List.intercalate [' ', '|', ' ']
        ((first :: others).map fun rhs => List.intercalate [' '] (wordsOf rhs)) =
      List.intercalate [' ', '|', ' ']
        ((([] :: wordsOf first) :: others.map wordsOf).map (List.intercalate [' '])) := by
  have head : List.intercalate [' '] ([] :: wordsOf first) =
      ' ' :: List.intercalate [' '] (wordsOf first) := by
    rw [List.intercalate_cons_of_ne_nil (wordsOf_ne_nil first)]
    rfl
  rw [List.map_cons, List.map_cons, head, List.intercalate_cons_cons_left, List.map_map]
  rfl

/-- Alternatives come back from what stands behind an arrow and a space. -/
private theorem readAlternatives_cons {alternatives : List (List Symbol)}
    (nonempty : alternatives ≠ []) (tokens : ∀ rhs ∈ alternatives, ∀ s ∈ rhs, IsToken s.name)
    (spelled : ∀ rhs ∈ alternatives, ∀ s ∈ rhs, s.IsSpelled) :
    readAlternatives (' ' :: List.intercalate [' ', '|', ' ']
      (alternatives.map fun rhs => List.intercalate [' '] (wordsOf rhs))) = alternatives := by
  obtain ⟨first, others, rfl⟩ := List.exists_cons_of_ne_nil nonempty
  obtain ⟨first_tokens, other_tokens⟩ := List.forall_mem_cons.mp tokens
  obtain ⟨first_spelled, other_spelled⟩ := List.forall_mem_cons.mp spelled
  have free : ∀ words ∈ ([] :: wordsOf first) :: others.map wordsOf,
      words ≠ [] ∧ ['|'] ∉ words ∧ ∀ w ∈ words, ' ' ∉ w := by
    obtain ⟨no_bar, no_space⟩ := plain_wordsOf first_tokens
    refine List.forall_mem_cons.mpr ⟨⟨List.cons_ne_nil _ _, by simpa using no_bar,
      by simpa using no_space⟩, fun words mem => ?_⟩
    obtain ⟨rhs, here, rfl⟩ := List.mem_map.mp mem
    exact ⟨wordsOf_ne_nil rhs, plain_wordsOf (other_tokens rhs here)⟩
  have no_space : ' ' ∉ ['|'] := by decide
  have split := Text.splitOn_intercalate no_space (List.cons_ne_nil _ _) free
  rw [cons_intercalate_words, readAlternatives]
  refine (congrArg (List.map readAlternative) split).trans ?_
  rw [List.map_map, List.map_cons, List.map_map]
  refine List.cons_eq_cons.mpr ⟨?_, ?_⟩
  · exact readAlternative_intercalate first_tokens first_spelled [[]] (by simp)
  · conv_rhs => rw [← List.map_id others]
    exact List.map_congr_left fun rhs mem =>
      readAlternative_intercalate (other_tokens rhs mem) (other_spelled rhs mem) [] nofun

section Rule

/-- A rule whose left-hand side is written by a name of a non-terminal that holds no arrow, and whose
alternatives are made of symbols that are read as they are. -/
structure IsWritable (rule : Symbol × List (List Symbol)) : Prop where
  nonempty : rule.2 ≠ []
  token : IsToken rule.1.name
  uppercase : BeginsUppercase rule.1.name.toList
  no_arrow : ¬ arrow <:+: rule.1.name.toList
  tokens : ∀ rhs ∈ rule.2, ∀ s ∈ rhs, IsToken s.name
  spelled : ∀ rhs ∈ rule.2, ∀ s ∈ rhs, s.IsSpelled

variable {rule : Symbol × List (List Symbol)} (writable : IsWritable rule)
include writable

/-- What is written behind the arrow. -/
private def restOf (rule : Symbol × List (List Symbol)) : List Char :=
  ' ' :: List.intercalate [' ', '|', ' ']
    (rule.2.map fun rhs => List.intercalate [' '] (wordsOf rhs))

private theorem toList_writeRule : (writeRule rule).toList =
    (rule.1.name.toList ++ [' ']) ++ arrow ++ restOf rule := by
  have alternatives : (rule.2.map writeAlternative).map String.toList =
      rule.2.map fun rhs => List.intercalate [' '] (wordsOf rhs) := by
    rw [List.map_map]
    exact List.map_congr_left fun rhs mem => toList_writeAlternative (writable.tokens rhs mem)
  have lhs : rule.1.render = rule.1.name := by
    simp [Symbol.render, Symbol.isEmpty, writable.token.1]
  rw [writeRule, String.toList_append, String.toList_append, String.toList_intercalate,
    alternatives, lhs, restOf, List.append_assoc, List.append_assoc, List.append_assoc]
  rfl

/-- A rule ends with a word. -/
private theorem exists_word : ∃ front word, restOf rule = front ++ word ∧ Text.IsWord word := by
  have nonempty : (rule.2.map fun rhs => List.intercalate [' '] (wordsOf rhs)) ≠ [] := by
    simpa using writable.nonempty
  obtain ⟨front, last, mem, whole⟩ := Text.exists_last_of_intercalate [' ', '|', ' '] nonempty
  obtain ⟨rhs, here, rfl⟩ := List.mem_map.mp mem
  obtain ⟨front', word, mem', whole'⟩ :=
    Text.exists_last_of_intercalate [' '] (wordsOf_ne_nil rhs)
  refine ⟨' ' :: (front ++ front'), word, ?_,
    (isWord_of_mem_wordsOf (writable.tokens rhs here) mem').1⟩
  rw [restOf, whole, whole', List.cons_append, List.append_assoc]

/-- A rule comes back from its line. -/
private theorem readRule_writeRule (number : Nat) :
    readRule (Text.trimEnd (writeRule rule).toList, number) =
      .ok (.ofName rule.1.name, rule.2) := by
  have head : ¬ arrow <:+: rule.1.name.toList ++ [' '] := fun occurs =>
    writable.no_arrow (Text.isInfix_of_isInfix_concat occurs (by decide))
  have found := cut_arrow_eq_some_iff.mpr ⟨toList_writeRule writable, head⟩
  have name : Text.trim (rule.1.name.toList ++ [' ']) = rule.1.name.toList := by
    have stripped : Text.trim (rule.1.name.toList ++ [' ']) = Text.trim rule.1.name.toList :=
      congrArg Text.trimStart (Text.trimEnd_append_of_blank _ (by decide))
    rw [stripped, Text.trim_eq_self writable.token.2.1]
  have seen : rule.1.name.toList.any Text.isBlank = false :=
    List.any_eq_false.mpr fun c mem => by simp [writable.token.2.1 c mem]
  have kind := beginsUppercase_iff.mp writable.uppercase
  have rest : Text.trimEnd (restOf rule) = restOf rule := by
    obtain ⟨front, word, whole, isWord⟩ := exists_word writable
    rw [whole, Text.trimEnd_append_word front isWord]
  have alternatives := readAlternatives_cons writable.nonempty writable.tokens writable.spelled
  rw [String.ofList_toList] at kind
  rw [readRule_trimEnd, found]
  simp only [name, seen, String.ofList_toList, kind, rest, Bool.or_false, Bool.false_eq_true,
    if_false]
  rw [restOf, alternatives]

private theorem newline_not_mem_writeRule : '\n' ∉ (writeRule rule).toList := by
  have words : '\n' ∉ restOf rule := by
    intro mem
    rcases List.mem_cons.mp mem with space | mem
    · cases space
    · rcases Text.mem_or_mem_of_mem_intercalate mem with mem | ⟨piece, listed, mem⟩
      · simp at mem
      · obtain ⟨rhs, here, rfl⟩ := List.mem_map.mp listed
        rcases Text.mem_or_mem_of_mem_intercalate mem with mem | ⟨word, there, mem⟩
        · simp at mem
        · exact (isWord_of_mem_wordsOf (writable.tokens rhs here) there).1.not_mem (by decide) mem
  have name : '\n' ∉ rule.1.name.toList := writable.token.isWord.not_mem (by decide)
  rw [toList_writeRule writable]
  simp [name, words, arrow]

private theorem writeRule_not_blank : ¬ Text.IsBlankText (writeRule rule).toList := by
  intro blank
  have dash := blank '-' (by simp [toList_writeRule writable, arrow])
  exact absurd dash (by decide)

end Rule

section Text

variable {start : Symbol} {rules : List (Symbol × List (List Symbol))}

/-- The lines of rules are read as the rules, the left-hand sides with the kind of their names. -/
theorem mapM_readRule (writable : ∀ rule ∈ rules, IsWritable rule) (n : Nat) :
    (contentFrom n (rules.map fun rule => (writeRule rule).toList)).mapM readRule =
      .ok (rules.map fun rule => (.ofName rule.1.name, rule.2)) := by
  induction rules generalizing n with
  | nil => rfl
  | cons rule rules ih =>
    obtain ⟨here, later⟩ := List.forall_mem_cons.mp writable
    rw [List.map_cons, contentFrom_cons (writeRule_not_blank here), List.mapM_cons,
      readRule_writeRule here, ih later]
    rfl

/-- The lines of a text, if it ends with the last of them and if it ends with a line feed. -/
theorem lines_write (token : IsToken start.name)
    (writable : ∀ rule ∈ rules, IsWritable rule) :
    Text.lines (write start rules).toList =
        start.name.toList :: rules.map (fun rule => (writeRule rule).toList) ∧
      Text.lines (write start rules ++ "\n").toList =
        start.name.toList :: rules.map (fun rule => (writeRule rule).toList) ++ [[]] := by
  have name : start.render = start.name := by
    simp [Symbol.render, Symbol.isEmpty, token.1]
  have joined : (write start rules).toList = List.intercalate ['\n']
      (start.name.toList :: rules.map fun rule => (writeRule rule).toList) := by
    rw [write, String.toList_intercalate, List.map_cons, List.map_map, name]
    rfl
  have free : ∀ line ∈ start.name.toList :: rules.map fun rule => (writeRule rule).toList,
      '\n' ∉ line := by
    refine List.forall_mem_cons.mpr ⟨token.isWord.not_mem (by decide), fun line mem => ?_⟩
    obtain ⟨rule, here, rfl⟩ := List.mem_map.mp mem
    exact newline_not_mem_writeRule (writable rule here)
  constructor
  · rw [joined]
    exact Text.splitAt_intercalate (List.cons_ne_nil _ _) free
  · have ended : (write start rules ++ "\n").toList = List.intercalate ['\n']
        (start.name.toList :: rules.map (fun rule => (writeRule rule).toList) ++ [[]]) := by
      rw [Text.intercalate_concat (List.cons_ne_nil _ _), List.append_nil, ← joined]
      exact String.toList_append
    rw [ended]
    refine Text.splitAt_intercalate (List.cons_ne_nil _ _) fun line mem => ?_
    rcases List.mem_append.mp mem with mem | mem
    · exact free line mem
    · rw [List.mem_singleton.mp mem]
      exact List.not_mem_nil

/-- What is read is the start symbol, as a non-terminal, with the productions of the rules. -/
private theorem read_of_lines {text : String} (token : IsToken start.name)
    (writable : ∀ rule ∈ rules, IsWritable rule) (rest : List (List Char))
    (blank : ∀ line ∈ rest, Text.IsBlankText line)
    (lines : Text.lines text.toList =
      start.name.toList :: rules.map (fun rule => (writeRule rule).toList) ++ rest) :
    read text = .ok (ofProductions (.nonTerminal start.name)
      (productionsOf (rules.map fun rule => (.ofName rule.1.name, rule.2)))) := by
  have word := token.isWord
  have name : Text.trim (Text.trimEnd start.name.toList) = start.name.toList := by
    have whole := Text.trimEnd_append_word [] word
    rw [List.nil_append] at whole
    rw [whole, Text.trim_eq_self word.2]
  rw [read_eq_readContent, contentLines_eq, lines, contentFrom_append_of_blank blank,
    contentFrom_cons word.not_blank, readContent, mapM_readRule writable, name, String.ofList_toList]
  rfl

end Text

private theorem isNonTerminal_of_beginsUppercase {name : String}
    (h : BeginsUppercase name.toList) : (Symbol.ofName name).isNonTerminal = true := by
  have kind := beginsUppercase_iff.mp h
  rw [String.ofList_toList, Symbol.isTerminal_eq_not] at kind
  simpa using kind

private theorem isSpelledProduction_of_writable {rules : List (Symbol × List (List Symbol))}
    (writable : ∀ rule ∈ rules, IsWritable rule) :
    ∀ p ∈ productionsOf (rules.map fun rule => (.ofName rule.1.name, rule.2)),
      IsSpelledProduction p := by
  intro p mem
  obtain ⟨_, listed, inside⟩ := List.mem_flatMap.mp mem
  obtain ⟨rule, here, rfl⟩ := List.mem_map.mp listed
  obtain ⟨rhs, there, rfl⟩ := List.mem_map.mp inside
  exact ⟨⟨Symbol.isSpelled_ofName _, (writable rule here).spelled rhs there⟩,
    isNonTerminal_of_beginsUppercase (writable rule here).uppercase⟩

section Grouping

variable {productions : List Production} {rules : List (Symbol × List (List Symbol))}
  (grouping : IsGrouping rules productions)
include grouping

private theorem isWritable_of_grouping
    (heads : ∀ p ∈ productions, IsToken p.lhs.name ∧ BeginsUppercase p.lhs.name.toList ∧
      ¬ arrow <:+: p.lhs.name.toList)
    (bodies : ∀ p ∈ productions, ∀ s ∈ p.rhs, IsToken s.name ∧ s.IsSpelled)
    {rule : Symbol × List (List Symbol)} (mem : rule ∈ rules) : IsWritable rule := by
  have origin : ∀ rhs ∈ rule.2, ∃ p ∈ productions, p.lhs.name = rule.1.name ∧ p.rhs = rhs :=
    fun rhs here => grouping.written ⟨rule.1, rhs⟩
      (List.mem_flatMap.mpr ⟨rule, mem, List.mem_map_of_mem here⟩)
  have nonempty := grouping.nonempty rule mem
  have body : ∀ rhs ∈ rule.2, ∀ s ∈ rhs, IsToken s.name ∧ s.IsSpelled := by
    intro rhs here
    obtain ⟨p, listed, -, rfl⟩ := origin rhs here
    exact bodies p listed
  obtain ⟨rhs, here⟩ := List.exists_mem_of_ne_nil _ nonempty
  obtain ⟨p, listed, name, -⟩ := origin rhs here
  obtain ⟨token, uppercase, no_arrow⟩ := name ▸ heads p listed
  exact ⟨nonempty, token, uppercase, no_arrow, fun rhs here s hs => (body rhs here s hs).1,
    fun rhs here s hs => (body rhs here s hs).2⟩

/-- Rules and productions cover each other also when the left-hand sides are read by their names. -/
private theorem covers_of_grouping :
    Covers productions (productionsOf (rules.map fun rule => (.ofName rule.1.name, rule.2))) ∧
      Covers (productionsOf (rules.map fun rule => (.ofName rule.1.name, rule.2))) productions := by
  have same : productionsOf (rules.map fun rule => (Symbol.ofName rule.1.name, rule.2)) =
      (productionsOf rules).map fun p => ⟨.ofName p.lhs.name, p.rhs⟩ := by
    simp [productionsOf, List.flatMap_map, List.map_flatMap, Function.comp_def]
  rw [same]
  constructor
  · intro p mem
    obtain ⟨q, here, rfl⟩ := List.mem_map.mp mem
    exact grouping.written q here
  · intro p mem
    obtain ⟨q, here, name, rhs⟩ := grouping.covered p mem
    exact ⟨_, List.mem_map_of_mem here, name, rhs⟩

end Grouping

/-- A grammar comes back from its text. Its names must be ones that stand for themselves, those of
the left-hand sides show non-terminals and hold no arrow, and the symbols of the right-hand sides
have the kinds that their names show. What is read has the start symbol and just the productions that
have been written, each left-hand side with the kind that its name shows. -/
theorem read_write {start : Symbol} {productions : List Production}
    {rules : List (Symbol × List (List Symbol))} (token : IsToken start.name)
    (heads : ∀ p ∈ productions, IsToken p.lhs.name ∧ BeginsUppercase p.lhs.name.toList ∧
      ¬ arrow <:+: p.lhs.name.toList)
    (bodies : ∀ p ∈ productions, ∀ s ∈ p.rhs, IsToken s.name ∧ s.IsSpelled)
    (grouping : IsGrouping rules productions) :
    ∃ g, read (write start rules) = .ok g ∧ read (write start rules ++ "\n") = .ok g ∧
      (g == ofProductions start productions) = true ∧
      (g.start = .nonTerminal start.name ∧
        ∀ p, p ∈ g.productions ↔ ∃ q ∈ productions, p = ⟨.ofName q.lhs.name, q.rhs⟩) ∧
      (start.isNonTerminal = true → (∀ p ∈ productions, p.lhs.isNonTerminal = true) →
        g = ofProductions start productions ∧ ∀ p, p ∈ g.productions ↔ p ∈ productions) := by
  have writable : ∀ rule ∈ rules, IsWritable rule := fun _ =>
    isWritable_of_grouping grouping heads bodies
  obtain ⟨plain, ended⟩ := lines_write token writable
  obtain ⟨written, covered⟩ := covers_of_grouping grouping
  have read_spelled := isSpelledProduction_of_writable writable
  have held : ∀ p, p ∈ (ofProductions (.nonTerminal start.name)
      (productionsOf (rules.map fun rule => (.ofName rule.1.name, rule.2)))).productions ↔
        ∃ q ∈ productions, p = ⟨.ofName q.lhs.name, q.rhs⟩ := fun p => by
    have same := mem_iff_of_covers read_spelled written covered (p := p)
    refine (mem_ofProductions_iff _ read_spelled fun p mem s hs => ?_).trans same
    obtain ⟨q, here, -, rhs⟩ := written p mem
    simp [Symbol.isEmpty, (bodies q here s (rhs ▸ hs)).1.1]
  refine ⟨_, read_of_lines token writable [] nofun (by rw [plain, List.append_nil]),
    read_of_lines token writable [[]] (by simp [Text.IsBlankText]) ended,
    ofProductions_beq rfl written covered, ⟨start_ofProductions _ _, held⟩, fun kind kinds => ?_⟩
  have whole : Symbol.nonTerminal start.name = start :=
    Symbol.eq_of_name_of_kind rfl (Symbol.isNonTerminal_iff.mp kind).symm
  have shown : ∀ p ∈ productions, p.lhs.IsSpelled := fun p mem =>
    Symbol.eq_of_name_of_kind rfl ((Symbol.isNonTerminal_iff.mp (kinds p mem)).trans
      (Symbol.isNonTerminal_iff.mp (isNonTerminal_of_beginsUppercase (heads p mem).2.1)).symm)
  have spelled : ∀ p ∈ productions, IsSpelledProduction p := fun p mem =>
    ⟨⟨shown p mem, fun s hs => (bodies p mem s hs).2⟩, kinds p mem⟩
  have itself : Covers productions productions := fun p mem => ⟨p, mem, rfl, rfl⟩
  refine ⟨?_, fun p => (held p).trans (mem_iff_of_covers spelled itself itself).symm⟩
  rw [whole]
  exact ofProductions_eq start read_spelled spelled written covered

/-- Arrows and bars inside names, and a production that is written twice. -/
theorem read_write_arrows :
    read "S\nS -> a|b A- | ε\nA- -> -> S\nS -> ε\n" = .ok (ofProductions (.nonTerminal "S")
      [⟨.nonTerminal "A-", [.terminal "->", .nonTerminal "S"]⟩, ⟨.nonTerminal "S", []⟩,
        ⟨.nonTerminal "S", [.terminal "a|b", .nonTerminal "A-"]⟩]) := by
  let rules : List (Symbol × List (List Symbol)) :=
    [(.nonTerminal "S", [[.terminal "a|b", .nonTerminal "A-"], []]),
      (.nonTerminal "A-", [[.terminal "->", .nonTerminal "S"]]), (.nonTerminal "S", [[]])]
  have text : write (.nonTerminal "S") rules ++ "\n" =
      "S\nS -> a|b A- | ε\nA- -> -> S\nS -> ε\n" := by decide +kernel
  let productions : List Production :=
    [⟨.nonTerminal "A-", [.terminal "->", .nonTerminal "S"]⟩, ⟨.nonTerminal "S", []⟩,
      ⟨.nonTerminal "S", [.terminal "a|b", .nonTerminal "A-"]⟩]
  have grouping : IsGrouping rules productions :=
    ⟨by decide +kernel, by decide +kernel, by decide +kernel⟩
  obtain ⟨g, -, read, -, -, same⟩ := @read_write (.nonTerminal "S") productions rules
    (by decide +kernel) (by decide +kernel) (by decide +kernel) grouping
  rw [← text, read, (same rfl (by decide +kernel)).1]

end Grammar

end CanonicalLR
