import CanonicalLR.Proofs.Grammar.Lines
import CanonicalLR.Proofs.Text.Split
import Mathlib.Data.Nat.Find

/-!
Which texts are not grammars. A text without a line that counts is empty. Otherwise every line that
counts, the first one apart, must have an arrow, and before its first arrow the name of a
non-terminal; the first line at fault decides the error, which carries its number among all lines.
-/

set_option autoImplicit false
set_option relaxedAutoImplicit false

namespace CanonicalLR.Grammar

/-- The mark between a left-hand side and its right-hand sides. -/
def arrow : List Char := ['-', '>']

def BeginsUppercase (name : List Char) : Prop :=
  ∃ c rest, name = c :: rest ∧ Text.isUppercase c = true

/-- What is wrong with a line that has a number. -/
inductive IsFault (line : List Char) (number : Nat) : ReadError → Prop
  | missingSeparator (absent : ¬ arrow <:+: line) :
      IsFault line number (.missingSeparator number (String.ofList (Text.trimEnd line)))
  | invalidLeftHandSide {before after : List Char} (parts : line = before ++ arrow ++ after)
      (first : ¬ arrow <:+: before)
      (bad : Text.trim before = [] ∨ (∃ c ∈ Text.trim before, Text.isBlank c = true) ∨
        ¬ BeginsUppercase (Text.trim before)) :
      IsFault line number (.invalidLeftHandSide number (String.ofList (Text.trim before)))

/-- A line with its place among all lines, counted from 0, is not blank and at fault. -/
def IsFaultAt (lines : List (List Char)) (i : Nat) (e : ReadError) : Prop :=
  ∃ line, lines[i]? = some line ∧ ¬ Text.IsBlankText line ∧ IsFault line (i + 1) e

/-- The place of the first line that is not blank. -/
def IsStartLine (lines : List (List Char)) (i : Nat) : Prop :=
  (∃ line, lines[i]? = some line ∧ ¬ Text.IsBlankText line) ∧
    ∀ j < i, ∀ line, lines[j]? = some line → Text.IsBlankText line

/-- The name shows a non-terminal. -/
theorem beginsUppercase_iff {name : List Char} :
    BeginsUppercase name ↔ (Symbol.ofName (String.ofList name)).isTerminal = false := by
  cases name with
  | nil => simp [BeginsUppercase, Symbol.ofName, Symbol.kindOfName, Symbol.isTerminal]
  | cons c rest =>
    by_cases upper : Text.isUppercase c = true <;>
      simp [BeginsUppercase, Symbol.ofName, Symbol.kindOfName, Symbol.isTerminal, upper]

instance (name : List Char) : Decidable (BeginsUppercase name) :=
  decidable_of_iff _ beginsUppercase_iff.symm

theorem cut_arrow_eq_some_iff {line before after : List Char} :
    Text.cut arrow line = some (before, after) ↔
      line = before ++ arrow ++ after ∧ ¬ arrow <:+: before :=
  Text.cut_pair_eq_some_iff (by decide)

theorem cut_arrow_eq_none_iff {line : List Char} :
    Text.cut arrow line = none ↔ ¬ arrow <:+: line :=
  Text.cut_eq_none_iff (List.cons_ne_nil _ _)

/-- Trimming the end of a line leaves its arrows and what stands before them. -/
theorem cut_trimEnd (line : List Char) : Text.cut arrow (Text.trimEnd line) =
    (Text.cut arrow line).map fun (before, after) => (before, Text.trimEnd after) := by
  cases found : Text.cut arrow line with
  | none =>
    refine cut_arrow_eq_none_iff.mpr fun occurs => ?_
    exact cut_arrow_eq_none_iff.mp found (occurs.trans (Text.trimEnd_prefix line).isInfix)
  | some parts =>
    obtain ⟨before, after⟩ := parts
    obtain ⟨rfl, absent⟩ := cut_arrow_eq_some_iff.mp found
    refine cut_arrow_eq_some_iff.mpr ⟨?_, absent⟩
    have kept := Text.trimEnd_append_cons (before ++ ['-']) after (c := '>') (by decide)
    simpa [arrow] using kept

/-- What a line is read as, by what stands before and after its first arrow. -/
theorem readRule_trimEnd (line : List Char) (number : Nat) :
    readRule (Text.trimEnd line, number) = match Text.cut arrow line with
      | none => .error (.missingSeparator number (String.ofList (Text.trimEnd line)))
      | some (before, after) =>
        let lhs := Symbol.ofName (String.ofList (Text.trim before))
        if (Text.trim before).any Text.isBlank || lhs.isTerminal then
          .error (.invalidLeftHandSide number lhs.name)
        else .ok (lhs, readAlternatives (Text.trimEnd after)) := by
  have parts := cut_trimEnd line
  unfold readRule
  change (match Text.cut arrow (Text.trimEnd line) with | none => _ | some (before, after) => _) = _
  rw [parts]
  cases Text.cut arrow line <;> rfl

private theorem isBad_iff {name : List Char} :
    (name.any Text.isBlank || (Symbol.ofName (String.ofList name)).isTerminal) = true ↔
      name = [] ∨ (∃ c ∈ name, Text.isBlank c = true) ∨ ¬ BeginsUppercase name := by
  rw [beginsUppercase_iff, Bool.or_eq_true, List.any_eq_true, Bool.not_eq_false]
  constructor
  · exact .inr
  · rintro (rfl | bad)
    · exact .inr rfl
    · exact bad

/-- A line is refused for what is wrong with it. -/
theorem readRule_eq_error_iff {line : List Char} {number : Nat} {e : ReadError} :
    readRule (Text.trimEnd line, number) = .error e ↔ IsFault line number e := by
  rw [readRule_trimEnd]
  constructor
  · intro refused
    split at refused
    · next found =>
      obtain rfl := Except.error.inj refused
      exact .missingSeparator (cut_arrow_eq_none_iff.mp found)
    · next before after found =>
      obtain ⟨parts, first⟩ := cut_arrow_eq_some_iff.mp found
      dsimp only at refused
      split at refused
      · next bad =>
        obtain rfl := Except.error.inj refused
        exact .invalidLeftHandSide parts first (isBad_iff.mp bad)
      · cases refused
  · intro fault
    cases fault with
    | missingSeparator absent => rw [cut_arrow_eq_none_iff.mpr absent]
    | invalidLeftHandSide parts first bad =>
      rw [cut_arrow_eq_some_iff.mpr ⟨parts, first⟩]
      exact if_pos (isBad_iff.mpr bad)

/-- A line that is not at fault is read. -/
private theorem exists_readRule_iff {line : List Char} {number : Nat} :
    (∃ rule, readRule (Text.trimEnd line, number) = .ok rule) ↔ ∀ e, ¬ IsFault line number e := by
  constructor
  · rintro ⟨rule, read⟩ e fault
    cases read.symm.trans (readRule_eq_error_iff.mpr fault)
  · intro sound
    cases read : readRule (Text.trimEnd line, number) with
    | ok rule => exact ⟨rule, rfl⟩
    | error e => exact absurd (readRule_eq_error_iff.mp read) (sound e)

variable {lines : List (List Char)}

/-- The first line that counts is the start line, and the others that count stand behind it. -/
private theorem exists_start (seen : ∃ line ∈ lines, ¬ Text.IsBlankText line) :
    ∃ start content rest, IsStartLine lines start ∧ contentFrom 1 lines = content :: rest ∧
      ∀ other, other ∈ rest ↔ ∃ i line, start < i ∧ lines[i]? = some line ∧
        ¬ Text.IsBlankText line ∧ other = (Text.trimEnd line, i + 1) := by
  obtain ⟨content, rest, whole⟩ := List.exists_cons_of_ne_nil (l := contentFrom 1 lines) (by
    simpa [contentFrom_eq_nil_iff] using seen)
  have listed : ∀ other, other = content ∨ other ∈ rest ↔ ∃ i line, lines[i]? = some line ∧
      ¬ Text.IsBlankText line ∧ other = (Text.trimEnd line, i + 1) := fun other => by
    rw [← List.mem_cons, ← whole, mem_contentFrom]
    simp only [Nat.add_comm 1]
  obtain ⟨start, line, found, here, rfl⟩ := (listed content).mp (.inl rfl)
  have above : ∀ other ∈ rest, start + 1 < other.2 := by
    have ascending := pairwise_contentFrom 1 lines
    rw [whole] at ascending
    exact (List.pairwise_cons.mp ascending).1
  refine ⟨start, _, rest, ⟨⟨line, found, here⟩, fun j less other at_j => ?_⟩, whole, fun other => ?_⟩
  · by_contra content
    rcases (listed _).mpr ⟨j, other, at_j, content, rfl⟩ with same | mem
    · have numbers : j + 1 = start + 1 := congrArg Prod.snd same
      omega
    · have later : start + 1 < j + 1 := above _ mem
      omega
  · constructor
    · intro mem
      obtain ⟨i, line, at_i, content, rfl⟩ := (listed other).mp (.inr mem)
      exact ⟨i, line, Nat.lt_of_succ_lt_succ (above _ mem), at_i, content, rfl⟩
    · rintro ⟨i, line, later, at_i, content, rfl⟩
      refine ((listed _).mpr ⟨i, line, at_i, content, rfl⟩).resolve_left fun same => ?_
      have numbers : i + 1 = start + 1 := congrArg Prod.snd same
      omega

/-- Reading fails on the first line at fault behind the start line. -/
private theorem readContent_eq_error_iff {start : Nat} {content : List Char × Nat}
    {rest : List (List Char × Nat)} (ascending : rest.Pairwise fun a b => a.2 < b.2)
    (others : ∀ other, other ∈ rest ↔ ∃ i line, start < i ∧ lines[i]? = some line ∧
      ¬ Text.IsBlankText line ∧ other = (Text.trimEnd line, i + 1)) {e : ReadError} :
    readContent (content :: rest) = .error e ↔
      ∃ i > start, IsFaultAt lines i e ∧
        ∀ j, start < j → j < i → ∀ e', ¬ IsFaultAt lines j e' := by
  have traversed : readContent (content :: rest) = .error e ↔ rest.mapM readRule = .error e := by
    rw [readContent]
    cases rest.mapM readRule with
    | error e' => simp [Except.map]
    | ok rules => simp [Except.map]
  rw [traversed, mapM_eq_error_iff ascending]
  constructor
  · rintro ⟨x, mem, refused, before⟩
    obtain ⟨i, line, later, found, seen, rfl⟩ := (others x).mp mem
    refine ⟨i, later, ⟨line, found, seen, readRule_eq_error_iff.mp refused⟩, ?_⟩
    rintro j behind less e' ⟨other, at_j, content, fault⟩
    have here := (others _).mpr ⟨j, other, behind, at_j, content, rfl⟩
    exact exists_readRule_iff.mp (before _ here (Nat.succ_lt_succ less)) e' fault
  · rintro ⟨i, later, ⟨line, found, seen, fault⟩, before⟩
    refine ⟨_, (others _).mpr ⟨i, line, later, found, seen, rfl⟩, readRule_eq_error_iff.mpr fault,
      fun y mem less => ?_⟩
    obtain ⟨j, other, behind, at_j, content, rfl⟩ := (others y).mp mem
    refine exists_readRule_iff.mpr fun e' fault' => ?_
    exact before j behind (Nat.lt_of_succ_lt_succ less) e' ⟨other, at_j, content, fault'⟩

/-- The texts that are no grammars. Without a line that is not blank a text is empty; otherwise it is
refused exactly if a line behind the first one that is not blank is at fault, and for what is wrong
with the first such line. -/
theorem read_eq_error_iff (text : String) :
    (read text = .error .empty ↔ ∀ line ∈ Text.lines text.toList, Text.IsBlankText line) ∧
    ((∃ line ∈ Text.lines text.toList, ¬ Text.IsBlankText line) →
      ∃ start, IsStartLine (Text.lines text.toList) start ∧
        ((∃ e, read text = .error e) ↔
          ∃ i > start, ∃ e, IsFaultAt (Text.lines text.toList) i e) ∧
        ∀ e, read text = .error e ↔ ∃ i > start, IsFaultAt (Text.lines text.toList) i e ∧
          ∀ j, start < j → j < i → ∀ e', ¬ IsFaultAt (Text.lines text.toList) j e') := by
  rw [read_eq_readContent, contentLines_eq]
  generalize Text.lines text.toList = lines
  by_cases blank : ∀ line ∈ lines, Text.IsBlankText line
  · have nothing : contentFrom 1 lines = [] := contentFrom_eq_nil_iff.mpr blank
    refine ⟨iff_of_true (by rw [nothing]; rfl) blank, ?_⟩
    rintro ⟨line, mem, seen⟩
    exact absurd (blank line mem) seen
  · have seen : ∃ line ∈ lines, ¬ Text.IsBlankText line := by simpa using blank
    obtain ⟨start, content, rest, first, whole, others⟩ := exists_start seen
    have ascending := pairwise_contentFrom 1 lines
    rw [whole] at ascending ⊢
    have refused : ∀ e, readContent (content :: rest) = .error e ↔
        ∃ i > start, IsFaultAt lines i e ∧
          ∀ j, start < j → j < i → ∀ e', ¬ IsFaultAt lines j e' := fun e =>
      readContent_eq_error_iff (List.pairwise_cons.mp ascending).2 others
    refine ⟨iff_of_false (fun failed => ?_) blank, fun _ => ⟨start, first, ⟨?_, ?_⟩, refused⟩⟩
    · obtain ⟨i, -, ⟨line, -, -, fault⟩, -⟩ := (refused .empty).mp failed
      cases fault
    · rintro ⟨e, failed⟩
      obtain ⟨i, later, fault, -⟩ := (refused e).mp failed
      exact ⟨i, later, e, fault⟩
    · -- of the places of lines at fault the least one decides
      intro faults
      classical
      obtain ⟨later, e, fault⟩ := Nat.find_spec faults
      refine ⟨e, (refused e).mpr ⟨Nat.find faults, later, fault, fun j behind less e' fault' => ?_⟩⟩
      exact Nat.find_min faults less ⟨behind, e', fault'⟩

/-- A line with an assignment sign in place of the arrow, behind a blank line and a sound one. -/
theorem read_eq_error_iff_assigned :
    read "E\n\t\nE -> T\n E := T \r\nE" = .error (.missingSeparator 4 " E := T") := by
  have lines : Text.lines "E\n\t\nE -> T\n E := T \r\nE".toList =
      ["E".toList, "\t".toList, "E -> T".toList, " E := T \r".toList, "E".toList] := by
    decide +kernel
  obtain ⟨-, refused⟩ := read_eq_error_iff "E\n\t\nE -> T\n E := T \r\nE"
  rw [lines] at refused
  obtain ⟨start, ⟨-, blank⟩, -, error⟩ :=
    refused ⟨"E".toList, List.mem_cons_self .., by decide +kernel⟩
  have first : start = 0 := by
    by_contra later
    exact absurd (blank 0 (by omega) _ rfl) (by decide +kernel)
  subst first
  have stripped : String.ofList (Text.trimEnd " E := T \r".toList) = " E := T" := by
    decide +kernel
  have fault : IsFault " E := T \r".toList 4 (.missingSeparator 4 " E := T") := by
    rw [← stripped]
    exact .missingSeparator (cut_arrow_eq_none_iff.mp (by decide +kernel))
  refine (error _).mpr ⟨3, by omega, ⟨_, rfl, by decide +kernel, fault⟩, ?_⟩
  rintro j behind less e ⟨line, found, seen, wrong⟩
  obtain rfl | rfl : j = 1 ∨ j = 2 := by omega
  · obtain rfl := Option.some.inj found
    exact seen (by decide +kernel)
  · obtain rfl := Option.some.inj found
    have read : ∃ rule, readRule (Text.trimEnd "E -> T".toList, 3) = .ok rule :=
      ⟨(.nonTerminal "E", [[.nonTerminal "T"]]), by decide +kernel⟩
    exact exists_readRule_iff.mp read e wrong

end CanonicalLR.Grammar
