import CanonicalLR.Proofs.Grammar.Kinds
import CanonicalLR.Proofs.Grammar.Writing
import CanonicalLR.Proofs.Parser.Construction

/-!
What does not count in the text of a grammar: blank lines and blank characters at the ends of lines,
which only move the numbers of the lines, and the order, the repetitions and the grouping of what the
rules say. A text says pairs of a left-hand side and a right-hand side; one that has been written says
those of its rules, in any layout. Texts with the same start name and the same pairs give the same
grammar, and so the same parser.
-/

set_option autoImplicit false
set_option relaxedAutoImplicit false

namespace CanonicalLR

/-- The same error for another line. -/
def ReadError.renumber (f : Nat → Nat) : ReadError → ReadError
  | .empty => .empty
  | .missingSeparator line text => .missingSeparator (f line) text
  | .invalidLeftHandSide line lhs => .invalidLeftHandSide (f line) lhs

theorem ReadError.renumber_id (e : ReadError) : e.renumber id = e := by
  cases e <;> rfl

namespace Grammar

/-- Blank lines to insert before each line of a text, by its place, and behind the last one, and
blank characters to append to each line. -/
structure Relayout where
  inserted : Nat → List (List Char)
  appended : Nat → List Char
  blank_inserted : ∀ i, ∀ line ∈ inserted i, Text.IsBlankText line ∧ '\n' ∉ line
  blank_appended : ∀ i, Text.IsBlankText (appended i) ∧ '\n' ∉ appended i

namespace Relayout

/-- The lines from place `i` on in the new layout. -/
def relay (r : Relayout) (i : Nat) : List (List Char) → List (List Char)
  | [] => r.inserted i
  | line :: lines => r.inserted i ++ (line ++ r.appended i) :: r.relay (i + 1) lines

/-- A text in the new layout. -/
def apply (r : Relayout) (text : String) : String :=
  String.ofList (List.intercalate ['\n'] (r.relay 0 (Text.lines text.toList)))

/-- The number of a line in the new layout: as many more as lines have been inserted before it. -/
def shift (r : Relayout) (number : Nat) : Nat :=
  number + ((List.range number).map fun i => (r.inserted i).length).sum

/-- A carriage return behind each of the first `n` lines. -/
def carriageReturns (n : Nat) : Relayout where
  inserted _ := []
  appended i := if i < n then ['\r'] else []
  blank_inserted := nofun
  blank_appended i := by split <;> decide

variable (r : Relayout)

theorem shift_succ (i : Nat) : r.shift (i + 1) = r.shift i + (r.inserted i).length + 1 := by
  simp only [shift, List.range_succ, List.map_append, List.sum_append, List.map_singleton,
    List.sum_singleton]
  omega

theorem shift_carriageReturns (n : Nat) : (carriageReturns n).shift = id := by
  ext number
  simp [shift, carriageReturns]

/-- The lines that count are the same in the new layout, under their new numbers. -/
private theorem contentFrom_relay (i : Nat) (lines : List (List Char)) :
    contentFrom (r.shift i + 1) (r.relay i lines) =
      (contentFrom (i + 1) lines).map fun line => (line.1, r.shift line.2) := by
  have inserted : ∀ i, ∀ line ∈ r.inserted i, Text.IsBlankText line := fun i line mem =>
    (r.blank_inserted i line mem).1
  induction lines generalizing i with
  | nil => exact contentFrom_eq_nil_iff.mpr (inserted i)
  | cons line lines ih =>
    have number : r.shift i + 1 + (r.inserted i).length = r.shift (i + 1) := by
      rw [shift_succ]
      omega
    have trimmed : Text.trimEnd (line ++ r.appended i) = Text.trimEnd line :=
      Text.trimEnd_append_of_blank line (r.blank_appended i).1
    have same : Text.IsBlankText (line ++ r.appended i) ↔ Text.IsBlankText line := by
      rw [← Text.trimEnd_eq_nil_iff, trimmed, Text.trimEnd_eq_nil_iff]
    rw [relay, contentFrom_append_of_blank_left (inserted i), number]
    by_cases blank : Text.IsBlankText line
    · rw [contentFrom_cons_of_blank (same.mpr blank), contentFrom_cons_of_blank blank]
      exact ih (i + 1)
    · rw [contentFrom_cons (mt same.mp blank), contentFrom_cons blank, trimmed, ih (i + 1)]
      rfl

private theorem relay_ne_nil (i : Nat) {lines : List (List Char)} (nonempty : lines ≠ []) :
    r.relay i lines ≠ [] := by
  obtain ⟨line, lines, rfl⟩ := List.exists_cons_of_ne_nil nonempty
  exact List.append_ne_nil_of_right_ne_nil _ (List.cons_ne_nil _ _)

private theorem newline_not_mem_relay (i : Nat) {lines : List (List Char)}
    (free : ∀ line ∈ lines, '\n' ∉ line) : ∀ line ∈ r.relay i lines, '\n' ∉ line := by
  induction lines generalizing i with
  | nil => exact fun line mem => (r.blank_inserted i line mem).2
  | cons first lines ih =>
    obtain ⟨here, later⟩ := List.forall_mem_cons.mp free
    intro line mem
    rcases List.mem_append.mp mem with mem | mem
    · exact (r.blank_inserted i line mem).2
    · rcases List.mem_cons.mp mem with rfl | mem
      · intro inside
        exact (List.mem_append.mp inside).elim here (r.blank_appended i).2
      · exact ih (i + 1) later line mem

private theorem lines_apply (text : String) :
    Text.lines (r.apply text).toList = r.relay 0 (Text.lines text.toList) := by
  have free : ∀ line ∈ Text.lines text.toList, '\n' ∉ line := fun _ => Text.not_mem_of_mem_splitAt
  rw [apply, String.toList_ofList]
  exact Text.splitAt_intercalate (r.relay_ne_nil 0 (Text.splitAt_ne_nil _ _))
    (r.newline_not_mem_relay 0 free)

theorem contentLines_apply (text : String) : contentLines (r.apply text).toList =
    (contentLines text.toList).map fun line => (line.1, r.shift line.2) := by
  rw [contentLines_eq, contentLines_eq, lines_apply]
  exact r.contentFrom_relay 0 (Text.lines text.toList)

end Relayout

section Renumbered

/-- A line under another number is read the same, and refused with that number. -/
private theorem readRule_renumber (f : Nat → Nat) (line : List Char × Nat) :
    readRule (line.1, f line.2) = (readRule line).mapError (ReadError.renumber f) := by
  unfold readRule
  cases Text.cut ['-', '>'] line.1 with
  | none => rfl
  | some parts =>
    dsimp only
    split <;> rfl

private theorem readContent_renumber (f : Nat → Nat) (lines : List (List Char × Nat)) :
    readContent (lines.map fun line => (line.1, f line.2)) =
      (readContent lines).mapError (ReadError.renumber f) := by
  cases lines with
  | nil => rfl
  | cons start lines =>
    have traversal : (lines.map fun line => (line.1, f line.2)).mapM readRule =
        (lines.mapM readRule).mapError (ReadError.renumber f) := by
      rw [List.mapM_map, ← mapM_mapError]
      exact congrArg (lines.mapM ·) (funext (readRule_renumber f))
    rw [List.map_cons, readContent, readContent, traversal]
    cases lines.mapM readRule <;> rfl

theorem read_apply (r : Relayout) (text : String) :
    read (r.apply text) = (read text).mapError (ReadError.renumber r.shift) := by
  rw [read_eq_readContent, read_eq_readContent, r.contentLines_apply, readContent_renumber]

end Renumbered

section CarriageReturns

/-- A carriage return with every line feed. -/
def withCarriageReturn (c : Char) : List Char := if c = '\n' then ['\r', '\n'] else [c]

/-- A text with a carriage return before every line feed. -/
def withCarriageReturns (text : String) : String :=
  String.ofList (text.toList.flatMap withCarriageReturn)

private theorem flatMap_withCarriageReturn {line : List Char} (free : '\n' ∉ line) :
    line.flatMap withCarriageReturn = line := by
  induction line with
  | nil => rfl
  | cons c line ih =>
    obtain ⟨here, later⟩ := not_or.mp (mt List.mem_cons.mpr free)
    rw [List.flatMap_cons, ih later, withCarriageReturn, if_neg (Ne.symm here)]
    rfl

/-- All lines but the last one end with a line feed. -/
private theorem flatMap_intercalate {i n : Nat} {lines : List (List Char)} (nonempty : lines ≠ [])
    (count : i + lines.length = n + 1) (free : ∀ line ∈ lines, '\n' ∉ line) :
    (List.intercalate ['\n'] lines).flatMap withCarriageReturn =
      List.intercalate ['\n'] ((Relayout.carriageReturns n).relay i lines) := by
  induction lines generalizing i with
  | nil => exact absurd rfl nonempty
  | cons line lines ih =>
    obtain ⟨here, later⟩ := List.forall_mem_cons.mp free
    cases lines with
    | nil =>
      have last : ¬ i < n := by
        simp only [List.length_singleton] at count
        omega
      simp [Relayout.relay, Relayout.carriageReturns, last, flatMap_withCarriageReturn here]
    | cons next lines =>
      have more : i < n := by
        simp only [List.length_cons] at count
        omega
      have rest := ih (i := i + 1) (List.cons_ne_nil _ _)
        (by simp only [List.length_cons] at count ⊢; omega) later
      have relaid : (Relayout.carriageReturns n).relay i (line :: next :: lines) =
          (line ++ ['\r']) :: (Relayout.carriageReturns n).relay (i + 1) (next :: lines) := by
        simp [Relayout.relay, Relayout.carriageReturns, more]
      have nonempty' : (Relayout.carriageReturns n).relay (i + 1) (next :: lines) ≠ [] :=
        List.append_ne_nil_of_right_ne_nil _ (List.cons_ne_nil _ _)
      rw [relaid, List.intercalate_cons_of_ne_nil nonempty', ← rest, List.intercalate_cons_cons,
        List.flatMap_append, List.flatMap_append, flatMap_withCarriageReturn here]
      simp [withCarriageReturn]

/-- Carriage returns before line feeds are blank characters at the ends of lines. -/
private theorem withCarriageReturns_eq_apply (text : String) : withCarriageReturns text =
    (Relayout.carriageReturns ((Text.lines text.toList).length - 1)).apply text := by
  have nonempty : Text.lines text.toList ≠ [] := Text.splitAt_ne_nil _ _
  have positive := List.length_pos_iff.mpr nonempty
  rw [withCarriageReturns, Relayout.apply]
  conv_lhs => rw [← Text.intercalate_splitAt '\n' text.toList]
  rw [← flatMap_intercalate nonempty (by omega) fun _ => Text.not_mem_of_mem_splitAt]
  rfl

theorem read_withCarriageReturns (text : String) : read (withCarriageReturns text) = read text := by
  rw [withCarriageReturns_eq_apply, read_apply, Relayout.shift_carriageReturns]
  cases read text with
  | error e => exact congrArg Except.error e.renumber_id
  | ok g => rfl

end CarriageReturns

section Pairs

/-- The trimmed start line. -/
def startName? (text : String) : Option String :=
  (contentLines text.toList).head?.map fun line => String.ofList (Text.trim line.1)

/-- The name on the left-hand side of a line with the names in each of its alternatives. -/
def pairsOf (line : List Char) : List (String × List String) :=
  match Text.cut arrow line with
  | none => []
  | some (before, after) => (Text.splitOn ' ' ['|', ' '] after).map fun alternative =>
      (String.ofList (Text.trim before), namesOf alternative)

/-- The pairs of a left-hand side and a right-hand side in a text. -/
def pairs (text : String) : List (String × List String) :=
  (contentLines text.toList).tail.flatMap fun line => pairsOf line.1

/-- The pairs that a rule says. -/
def pairsOfRule (rule : Symbol × List (List Symbol)) : List (String × List String) :=
  rule.2.map fun rhs => (rule.1.name, rhs.map (·.name))

/-- The production of a pair, with the kinds that the names show. -/
def ofPair (pair : String × List String) : Production := ⟨.ofName pair.1, pair.2.map .ofName⟩

/-- A line that is read has the pairs of its rule. -/
private theorem pairsOf_eq_of_readRule {line : List Char × Nat}
    {rule : Symbol × List (List Symbol)} (read : readRule line = .ok rule) :
    pairsOf line.1 = pairsOfRule rule := by
  unfold readRule at read
  unfold pairsOf arrow
  cases found : Text.cut ['-', '>'] line.1 with
  | none =>
    rw [found] at read
    cases read
  | some parts =>
    rw [found] at read
    dsimp only at read ⊢
    split at read
    · cases read
    · cases read
      rw [pairsOfRule, readAlternatives, List.map_map]
      refine List.map_congr_left fun alternative _ => ?_
      have names : ((readAlternative alternative).map (·.name)) = namesOf alternative := by
        rw [readAlternative_eq, List.map_map]
        exact List.map_id _
      exact congrArg (Prod.mk _) names.symm

private theorem flatMap_pairsOf_of_mapM {lines : List (List Char × Nat)}
    {rules : List (Symbol × List (List Symbol))} (read : lines.mapM readRule = .ok rules) :
    (lines.flatMap fun line => pairsOf line.1) = rules.flatMap pairsOfRule := by
  induction lines generalizing rules with
  | nil =>
    obtain rfl := Except.ok.inj read
    rfl
  | cons line lines ih =>
    obtain ⟨rule, more, first, rest, rfl⟩ := exists_of_mapM_cons read
    rw [List.flatMap_cons, List.flatMap_cons, pairsOf_eq_of_readRule first, ih rest]

/-- The pairs of a written text are those of its rules: the name of each left-hand side with the names
in each of its alternatives. -/
theorem pairs_write {start : Symbol} {rules : List (Symbol × List (List Symbol))}
    (token : IsToken start.name) (writable : ∀ rule ∈ rules, IsWritable rule) :
    startName? (write start rules) = some start.name ∧
      pairs (write start rules) = rules.flatMap pairsOfRule := by
  have word := token.isWord
  have content : contentLines (write start rules).toList = (Text.trimEnd start.name.toList, 1) ::
      contentFrom 2 (rules.map fun rule => (writeRule rule).toList) := by
    rw [contentLines_eq, (lines_write token writable).1, contentFrom_cons word.not_blank]
  constructor
  · have whole := Text.trimEnd_append_word [] word
    rw [List.nil_append] at whole
    rw [startName?, content]
    simp [whole, Text.trim_eq_self word.2]
  · rw [pairs, content, List.tail_cons, flatMap_pairsOf_of_mapM (mapM_readRule writable 2),
      List.flatMap_map]
    rfl

/-- A new layout leaves the pairs of a text, and its start line. -/
theorem pairs_apply (r : Relayout) (text : String) :
    startName? (r.apply text) = startName? text ∧ pairs (r.apply text) = pairs text := by
  rw [startName?, startName?, pairs, pairs, r.contentLines_apply, List.head?_map, ← List.map_tail,
    List.flatMap_map, Option.map_map]
  exact ⟨rfl, rfl⟩

/-- The productions of rules are those of their pairs, where all kinds are the ones that names show. -/
private theorem productionsOf_eq_map_ofPair {rules : List (Symbol × List (List Symbol))}
    (spelled : ∀ p ∈ productionsOf rules, IsSpelledProduction p) :
    productionsOf rules = (rules.flatMap pairsOfRule).map ofPair := by
  rw [productionsOf, List.map_flatMap]
  refine List.flatMap_congr fun rule mem => ?_
  rw [pairsOfRule, List.map_map]
  refine List.map_congr_left fun rhs here => ?_
  obtain ⟨⟨head, body⟩, _⟩ := spelled ⟨rule.1, rhs⟩
    (List.mem_flatMap.mpr ⟨rule, mem, List.mem_map_of_mem here⟩)
  have symbols : (rhs.map (·.name)).map Symbol.ofName = rhs := by
    rw [List.map_map]
    conv_rhs => rw [← List.map_id rhs]
    exact List.map_congr_left fun s hs => (body s hs).symm
  exact congrArg₂ Production.mk head symbols.symm

/-- What has been read is the start symbol with the productions of the pairs. -/
private theorem eq_ofProductions_of_read {text : String} {g : Grammar} (h : read text = .ok g) :
    ∃ start, startName? text = some start ∧
      g = ofProductions (.nonTerminal start) ((pairs text).map ofPair) ∧
      ∀ p ∈ (pairs text).map ofPair, IsSpelledProduction p := by
  obtain ⟨start, lines, rules, content, traversal, rfl⟩ := exists_rules_of_read h
  have same : productionsOf rules = (pairs text).map ofPair := by
    rw [pairs, content, List.tail_cons, flatMap_pairsOf_of_mapM traversal]
    exact productionsOf_eq_map_ofPair (isSpelled_of_mapM traversal)
  refine ⟨_, ?_, congrArg (ofProductions _) same, same ▸ isSpelled_of_mapM traversal⟩
  rw [startName?, content]
  rfl

private theorem covers_of_subset {l m : List (String × List String)} (h : ∀ pair ∈ m, pair ∈ l) :
    Covers (l.map ofPair) (m.map ofPair) := by
  intro p mem
  obtain ⟨pair, here, rfl⟩ := List.mem_map.mp mem
  exact ⟨_, List.mem_map_of_mem (h pair here), rfl, rfl⟩

/-- Of a text that is read only the start line and the set of its pairs count. -/
theorem eq_of_read_of_pairs {text text' : String} {g h : Grammar} (left : read text = .ok g)
    (right : read text' = .ok h) (start : startName? text = startName? text')
    (same : ∀ pair, pair ∈ pairs text ↔ pair ∈ pairs text') : g = h := by
  obtain ⟨name, first, rfl, spelled⟩ := eq_ofProductions_of_read left
  obtain ⟨name', second, rfl, spelled'⟩ := eq_ofProductions_of_read right
  rw [first, second] at start
  obtain rfl := Option.some.inj start
  exact ofProductions_eq _ spelled spelled' (covers_of_subset fun pair => (same pair).mp)
    (covers_of_subset fun pair => (same pair).mpr)

end Pairs

/-- The layout of a text does not count. Blank lines and blank characters at the ends of lines leave
what is read, but for the number of a line at fault, which grows by the number of lines inserted
before it, and carriage returns leave all of it. What is read is the start line with the productions
of the pairs, so texts with the same start line and the same set of pairs give the same grammar, and
parsers with the same states, the same table and the same runs. -/
theorem read_layout :
    (∀ (r : Relayout) text,
      read (r.apply text) = (read text).mapError (ReadError.renumber r.shift)) ∧
    (∀ text, read (withCarriageReturns text) = read text) ∧
    (∀ text g, read text = .ok g → ∃ start, startName? text = some start ∧
      g = ofProductions (.nonTerminal start) ((pairs text).map ofPair)) ∧
    ∀ text text' g h, read text = .ok g → read text' = .ok h → startName? text = startName? text' →
      (∀ pair, pair ∈ pairs text ↔ pair ∈ pairs text') →
      g = h ∧ ∃ p q, Parser.ofGrammar g = .ok p ∧ Parser.ofGrammar h = .ok q ∧
        p.automaton = q.automaton ∧ p.table = q.table ∧
        ∀ limit input, p.parse limit input = q.parse limit input := by
  refine ⟨read_apply, read_withCarriageReturns, fun text g h => ?_,
    fun text text' g h left right start same => ?_⟩
  · obtain ⟨start, found, whole, -⟩ := eq_ofProductions_of_read h
    exact ⟨start, found, whole⟩
  · obtain rfl := eq_of_read_of_pairs left right start same
    obtain ⟨p, built⟩ := Parser.exists_ofGrammar (isEmpty_start_of_read left)
    exact ⟨rfl, p, p, built, built, rfl, rfl, fun _ _ => rfl⟩

/-- A blank line before the second line and a tab behind it, carriage returns, and alternatives in
another order and grouping, one of them written twice. -/
theorem read_layout_shuffled :
    read "S\n\r\nS = a\t" = .error (.missingSeparator 3 "S = a") ∧
      read "S\r\nS -> a | S b" = read "S\nS -> a | S b" ∧
      ∃ g p, read "S\nS -> a | S b" = .ok g ∧ Parser.ofGrammar g = .ok p ∧
        read "\t\n S\nS -> S b\n\nS  -> a\t\nS -> S b" = .ok g := by
  obtain ⟨relaid, returns, -, shuffled⟩ := read_layout
  let r : Relayout :=
    { inserted i := if i = 1 then [['\r']] else []
      appended i := if i = 1 then ['\t'] else []
      blank_inserted i := by split <;> decide
      blank_appended i := by split <;> decide }
  have moved := relaid r "S\nS = a"
  have text : r.apply "S\nS = a" = "S\n\r\nS = a\t" := by decide +kernel
  have refused : read "S\nS = a" = .error (.missingSeparator 2 "S = a") := by decide +kernel
  have crlf : withCarriageReturns "S\nS -> a | S b" = "S\r\nS -> a | S b" := by decide +kernel
  rw [text, refused] at moved
  refine ⟨moved, crlf ▸ returns "S\nS -> a | S b", ?_⟩
  let g := (ofStart (.nonTerminal "S")).pushAll (.nonTerminal "S")
    [[.terminal "a"], [.nonTerminal "S", .terminal "b"]]
  let h := (ofStart (.nonTerminal "S")).pushAll (.nonTerminal "S")
    [[.nonTerminal "S", .terminal "b"], [.terminal "a"], [.nonTerminal "S", .terminal "b"]]
  have left : read "S\nS -> a | S b" = .ok g := by decide +kernel
  have right : read "\t\n S\nS -> S b\n\nS  -> a\t\nS -> S b" = .ok h := by decide +kernel
  have first : pairs "S\nS -> a | S b" = [("S", ["a"]), ("S", ["S", "b"])] := by decide +kernel
  have second : pairs "\t\n S\nS -> S b\n\nS  -> a\t\nS -> S b" =
      [("S", ["S", "b"]), ("S", ["a"]), ("S", ["S", "b"])] := by decide +kernel
  obtain ⟨same, p, -, built, -⟩ := shuffled _ _ g h left right (by decide +kernel) fun pair => by
    rw [first, second]
    simp only [List.mem_cons, List.not_mem_nil, or_false]
    tauto
  exact ⟨g, p, left, built, by rw [right, same]⟩

end Grammar

end CanonicalLR
