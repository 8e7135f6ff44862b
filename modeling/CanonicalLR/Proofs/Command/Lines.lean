import CanonicalLR.Command
import CanonicalLR.Proofs.Calculator.Parsing
import CanonicalLR.Proofs.Session.Answers
import CanonicalLR.Proofs.Text.Split

/-!
Lines that are entered and lines that are given. The command takes the margins off a line that it reads
from its input, and answers a given line as it stands. Entered lines are therefore answered as they are
when they are given without their margins; given with plain margins, they are answered with the same
output and with errors that stand behind the margins.
-/

set_option autoImplicit false
set_option relaxedAutoImplicit false

namespace CanonicalLR.Command

open CommandLine (Options)
open Session (Answer Message)

/-- A line that is answered when it is entered. -/
structure IsEntry (line : String) : Prop where
  unbroken : '\n' ∉ line.toList
  nonempty : Text.trimmed line ≠ ""
  continues : Text.trimmed line ≠ "q"

instance (line : String) : Decidable (IsEntry line) :=
  decidable_of_iff ('\n' ∉ line.toList ∧ Text.trimmed line ≠ "" ∧ Text.trimmed line ≠ "q")
    ⟨fun ⟨unbroken, nonempty, continues⟩ => ⟨unbroken, nonempty, continues⟩,
      fun ⟨unbroken, nonempty, continues⟩ => ⟨unbroken, nonempty, continues⟩⟩

/-- A text of lines. The last one need not be ended. -/
def IsTyped (lines : List String) (input : String) : Prop :=
  input = "\n".intercalate lines ∨ input = "\n".intercalate lines ++ "\n"

/-- The options with other lines to be answered; without any, lines are read from the input. -/
def giving (options : Options) (lines : List String) : Options := { options with exprs := lines }

/-- What the command leaves behind that comes to answers. -/
def transcript (options : Options) (p : Parser) (answers : List Answer) : Transcript :=
  ⟨opening options p ++ answers.flatMap (·.messages (style options) p),
    if answers.any (·.isBroken) then 1 else 0⟩

variable {p : Parser} {options : Options} {limit : Nat} {grammarText input : String}
  {lines others : List String} {answers : List Answer}

/-- A text has a parser exactly if it is that of a grammar that has one. -/
theorem parserOf_eq_ok_iff : parserOf grammarText = .ok p ↔
    ∃ g, Grammar.read grammarText = .ok g ∧ Parser.ofGrammar g = .ok p := by
  unfold parserOf
  cases Grammar.read grammarText with
  | error e => simp
  | ok g => cases built : Parser.ofGrammar g <;> simp [built]

theorem run_eq (accepted : parserOf grammarText = .ok p) : run limit options grammarText input =
    (Session.answers p limit (linesOf options input)).map (transcript options p) := by
  rw [run, accepted]
  rfl

section Entered

theorem IsEntry.not_isBlankText {line : String} (h : IsEntry line) :
    ¬ Text.IsBlankText line.toList := by
  intro blank
  refine h.nonempty ?_
  rw [Text.trimmed, Text.trim_eq_nil_iff.mpr blank]

private theorem entered_append (entries : ∀ line ∈ lines, IsEntry line) :
    Session.entered (lines ++ others) = lines.map Text.trimmed ++ Session.entered others := by
  induction lines with
  | nil => rfl
  | cons line lines ih =>
    obtain ⟨entry, entries⟩ := List.forall_mem_cons.mp entries
    have read : Session.Entry.ofLine line = .line (Text.trimmed line) := by
      unfold Session.Entry.ofLine
      split
      · next nothing => exact absurd nothing entry.nonempty
      · next quit => exact absurd quit entry.continues
      · rfl
    rw [List.cons_append, Session.entered, read, List.map_cons, List.cons_append, ← ih entries]

/-- The lines of a text that is made of lines are these, and blank ones behind them. -/
private theorem exists_blank_lines (unbroken : ∀ line ∈ lines, '\n' ∉ line.toList)
    (typed : IsTyped lines input) : ∃ blanks : List String, Session.entered blanks = [] ∧
      (Text.lines input.toList).map String.ofList = lines ++ blanks := by
  by_cases none : lines = []
  · subst none
    rcases typed with rfl | rfl
    · exact ⟨[""], by decide, rfl⟩
    · exact ⟨["", ""], by decide, rfl⟩
  · rcases typed with rfl | rfl
    · refine ⟨[], rfl, ?_⟩
      rw [Text.map_lines_intercalate unbroken none, List.append_nil]
    · refine ⟨[""], by decide, ?_⟩
      have ended : "\n".intercalate lines ++ "\n" = "\n".intercalate (lines ++ [""]) := by
        rw [String.intercalate_append_of_ne_nil none (by simp), String.intercalate_singleton,
          String.append_empty]
      rw [ended]
      exact Text.map_lines_intercalate (by simpa [or_imp, forall_and] using unbroken) (by simp)

/-- The lines of an input that are answered are those entered, without their margins. -/
theorem linesOf_typed (entries : ∀ line ∈ lines, IsEntry line) (typed : IsTyped lines input) :
    linesOf (giving options []) input = lines.map Text.trimmed := by
  obtain ⟨blanks, nothing, whole⟩ :=
    exists_blank_lines (fun line mem => (entries line mem).unbroken) typed
  change Session.entered ((Text.lines input.toList).map String.ofList) = _
  rw [whole, entered_append entries, nothing, List.append_nil]

/-- Given lines are answered as they stand; where there are none, nothing may be entered. -/
theorem linesOf_giving {other : String} (alone : lines = [] → other = "") :
    linesOf (giving options lines) other = lines := by
  cases lines with
  | nil =>
    obtain rfl := alone rfl
    change Session.entered ((Text.lines []).map String.ofList) = []
    decide
  | cons line lines => rfl

end Entered

section Written

theorem Transcript.output_append (before after : List Message) (exitCode : Nat) :
    (⟨before ++ after, exitCode⟩ : Transcript).output =
      (⟨before, exitCode⟩ : Transcript).output ++ (⟨after, exitCode⟩ : Transcript).output := by
  simp [output]

theorem Transcript.diagnostics_append (before after : List Message) (exitCode : Nat) :
    (⟨before ++ after, exitCode⟩ : Transcript).diagnostics =
      (⟨before, exitCode⟩ : Transcript).diagnostics ++
        (⟨after, exitCode⟩ : Transcript).diagnostics := by
  simp [diagnostics]

/-- On standard output stands the report, unless the command is quiet, before what is answered. -/
theorem output_transcript : (transcript options p answers).output =
    (if options.quiet then "" else Report.ofParser (style options) p ++ "\n") ++
      (⟨answers.flatMap (·.messages (style options) p), 0⟩ : Transcript).output := by
  unfold transcript opening
  rw [Transcript.output_append, Transcript.output_append]
  refine congrArg (· ++ _) ?_
  cases options.quiet <;> cases options.exprs.isEmpty <;> simp [Transcript.output]

/-- On the error stream stands the prompt, if lines are entered, before the errors. -/
theorem diagnostics_transcript : (transcript options p answers).diagnostics =
    (if options.exprs.isEmpty then Session.prompt else "") ++
      (⟨answers.flatMap (·.messages (style options) p), 0⟩ : Transcript).diagnostics := by
  unfold transcript opening
  rw [Transcript.diagnostics_append, Transcript.diagnostics_append]
  refine congrArg (· ++ _) ?_
  cases options.quiet <;> cases options.exprs.isEmpty <;> simp [Transcript.diagnostics]

/-- Whether lines are entered or given, the same is written to standard output. -/
theorem output_giving (lines : List String) : (transcript (giving options lines) p answers).output =
    (transcript (giving options []) p answers).output := by
  rw [output_transcript, output_transcript]
  rfl

/-- Before the errors in entered lines stands the prompt. -/
theorem diagnostics_giving (some_line : lines ≠ []) :
    (transcript (giving options []) p answers).diagnostics =
      Session.prompt ++ (transcript (giving options lines) p answers).diagnostics := by
  have given : (giving options lines).exprs.isEmpty = false := by simpa [giving] using some_line
  rw [diagnostics_transcript, diagnostics_transcript, given]
  refine congrArg (Session.prompt ++ ·) ?_
  exact (String.empty_append).symm

private theorem output_written_behindLead (enough : answers.length ≤ lines.length) :
    (⟨(List.zipWith Answer.behindLead lines answers).flatMap (·.messages (style options) p), 0⟩ :
        Transcript).output =
      (⟨answers.flatMap (·.messages (style options) p), 0⟩ : Transcript).output := by
  induction answers generalizing lines with
  | nil =>
    rw [List.zipWith_nil_right]
  | cons a answers ih =>
    obtain ⟨line, lines, rfl⟩ := List.exists_cons_of_length_pos (Nat.zero_lt_of_lt enough)
    rw [List.zipWith_cons_cons, List.flatMap_cons, List.flatMap_cons, Transcript.output_append,
      Transcript.output_append, ih (Nat.le_of_succ_le_succ enough)]
    refine congrArg (· ++ _) ?_
    cases a <;> rfl

/-- Margins change no more than the places of errors. -/
theorem output_behindLead (enough : answers.length ≤ lines.length) :
    (transcript options p (List.zipWith .behindLead lines answers)).output =
      (transcript options p answers).output := by
  rw [output_transcript, output_transcript, output_written_behindLead enough]

end Written

/-- Entered lines are answered as they are when they are given without their margins, with the same
on standard output and the same errors behind the prompt. A line that is given as it stands is answered
so, but for the place of an error, exactly if its margins are plain; else the answer is the error that
stands in its margins. -/
theorem run_entered (accepted : parserOf grammarText = .ok p)
    (entries : ∀ line ∈ lines, IsEntry line)
    (ends : ∀ line ∈ lines, Session.Ends p (Text.trimmed line)) (typed : IsTyped lines input)
    {other : String} (alone : lines = [] → other = "") (options : Options) :
    (∃ enough entered given,
      (∀ limit, enough ≤ limit →
        run limit (giving options []) grammarText input =
            some (transcript (giving options []) p entered) ∧
          run limit (giving options (lines.map Text.trimmed)) grammarText other =
            some (transcript (giving options (lines.map Text.trimmed)) p entered) ∧
          run limit (giving options lines) grammarText other =
            some (transcript (giving options lines) p given) ∧
          Session.answers p limit lines = some given) ∧
      (transcript (giving options []) p entered).output =
        (transcript (giving options (lines.map Text.trimmed)) p entered).output ∧
      (lines ≠ [] → (transcript (giving options []) p entered).diagnostics = Session.prompt ++
        (transcript (giving options (lines.map Text.trimmed)) p entered).diagnostics) ∧
      ((∀ line ∈ lines, Token.PlainMargins line) → given = List.zipWith .behindLead lines entered ∧
        (transcript (giving options lines) p given).output =
          (transcript (giving options []) p entered).output)) ∧
    ∀ line ∈ lines, ∀ limit,
      (Session.answer p limit line =
          (Session.answer p limit (Text.trimmed line)).map (.behindLead line) ↔
        Token.PlainMargins line) ∧
      (¬ Token.PlainMargins line →
        ∃ e, Session.answer p limit line = some (.unreadable e) ∧
          Token.IsMarginFault line e) := by
  have seen := fun line mem => (entries line mem).not_isBlankText
  refine ⟨?_, fun line mem limit => ⟨Session.answer_eq_behindLead_iff (seen line mem), fun other =>
    Session.exists_answer_of_not_plainMargins (seen line mem) other limit⟩⟩
  have ends_trimmed : ∀ line ∈ lines.map Text.trimmed, Session.Ends p line := by
    simpa only [List.forall_mem_map] using ends
  obtain ⟨n, entered, stripped⟩ := Session.exists_answers_from ends_trimmed
  obtain ⟨m, given, whole⟩ :=
    Session.exists_answers_from fun line mem => (ends line mem).of_trimmed (seen line mem)
  have stripped_later (limit : Nat) (bound : n + m ≤ limit) :=
    stripped limit (Nat.le_of_add_right_le bound)
  have whole_later (limit : Nat) (bound : n + m ≤ limit) :=
    whole limit (Nat.le_of_add_left_le bound)
  have alone_trimmed : lines.map Text.trimmed = [] → other = "" := fun none =>
    alone (List.map_eq_nil_iff.mp none)
  refine ⟨n + m, entered, given, fun limit bound => ⟨?_, ?_, ?_, whole_later limit bound⟩,
    (output_giving _).symm, fun some_line => diagnostics_giving (by simpa using some_line),
    fun plain => ?_⟩
  · rw [run_eq accepted, linesOf_typed entries typed, stripped_later limit bound]
    rfl
  · rw [run_eq accepted, linesOf_giving alone_trimmed, stripped_later limit bound]
    rfl
  · rw [run_eq accepted, linesOf_giving alone, whole_later limit bound]
    rfl
  · have same : Session.answers p (n + m) lines = _ := Session.answers_of_plainMargins seen plain
    rw [stripped_later _ (Nat.le_refl _), whole_later _ (Nat.le_refl _)] at same
    obtain rfl := Option.some.inj same
    refine ⟨rfl, ?_⟩
    rw [output_behindLead, output_giving]
    simpa using Session.length_le_of_answers (stripped n (Nat.le_refl n))

section Calculator

private theorem ends_calculator {p : Parser} (built : Parser.ofGrammar Calculator.grammar = .ok p)
    (line : String) : Session.Ends p line := by
  intro tokens _
  obtain ⟨limit, trace, parsed⟩ := Calculator.exists_trace built (Calculator.inputOf tokens)
  exact ⟨limit, .ok trace, parsed⟩

/-- Blanks in front of a line move the error in it, and a form feed behind one is not seen. -/
theorem run_entered_calculator : ∃ p enough entered, parserOf Calculator.grammarText = .ok p ∧
    (∀ limit, enough ≤ limit →
      run limit ⟨none, [], true, true⟩ Calculator.grammarText "  1 x\n2\x0c\n" =
          some (transcript ⟨none, [], true, true⟩ p entered) ∧
        run limit ⟨none, ["  1 x", "2\x0c"], true, true⟩ Calculator.grammarText "" =
          some (transcript ⟨none, ["  1 x", "2\x0c"], true, true⟩ p
            (List.zipWith .behindLead ["  1 x", "2\x0c"] entered))) ∧
    (transcript ⟨none, ["  1 x", "2\x0c"], true, true⟩ p
        (List.zipWith .behindLead ["  1 x", "2\x0c"] entered)).output =
      (transcript ⟨none, [], true, true⟩ p entered).output := by
  obtain ⟨p, built⟩ := Parser.exists_ofGrammar (g := Calculator.grammar) (by decide)
  have accepted := parserOf_eq_ok_iff.mpr ⟨_, Calculator.read_grammarText, built⟩
  have entries : ∀ line ∈ ["  1 x", "2\x0c"], IsEntry line := by decide
  have typed : IsTyped ["  1 x", "2\x0c"] "  1 x\n2\x0c\n" := .inr (by decide)
  have alone : ["  1 x", "2\x0c"] = [] → "" = "" := fun _ => rfl
  obtain ⟨⟨enough, entered, given, runs, -, -, plain⟩, -⟩ := run_entered accepted entries
    (fun line _ => ends_calculator built _) typed alone ⟨none, [], true, true⟩
  obtain ⟨rfl, same⟩ := plain (by decide)
  exact ⟨p, enough, entered, accepted, fun limit bound =>
    ⟨(runs limit bound).1, (runs limit bound).2.2.1⟩, same⟩

/-- A vertical tab in front of a line is taken off when the line is entered, and is an error in it when
it is given; a blank in front of a line is counted only when it is given. -/
theorem exists_run_entered_ne_given : ∃ p enough fed given,
    parserOf Calculator.grammarText = .ok p ∧
    (∀ line ∈ ["\x0b1", " x"], IsEntry line ∧ Session.Ends p line ∧
      Session.Ends p (Text.trimmed line)) ∧
    IsTyped ["\x0b1", " x"] "\x0b1\n x\n" ∧
    (∀ limit, enough ≤ limit →
      run limit ⟨none, [], true, true⟩ Calculator.grammarText "\x0b1\n x\n" = some fed ∧
        run limit ⟨none, ["\x0b1", " x"], true, true⟩ Calculator.grammarText "" = some given) ∧
    fed.output ≠ given.output ∧
    fed.diagnostics = Session.prompt ++ "unexpected character 'x' at offset 0\n\n" ∧
    given.diagnostics = "unexpected character '\\u\x7bb\x7d' at offset 0\n\n" ++
      "unexpected character 'x' at offset 1\n\n" := by
  obtain ⟨p, built⟩ := Parser.exists_ofGrammar (g := Calculator.grammar) (by decide)
  have accepted := parserOf_eq_ok_iff.mpr ⟨_, Calculator.read_grammarText, built⟩
  have entries : ∀ line ∈ ["\x0b1", " x"], IsEntry line := by decide
  have typed : IsTyped ["\x0b1", " x"] "\x0b1\n x\n" := .inr (by decide)
  obtain ⟨enough, trace, parsed⟩ := Calculator.exists_trace built [.terminal "n"]
  have traced : Session.answer p enough "1" = some (.traced [.terminal "n"] trace) := by
    have read : Token.ofLine "1" = .ok [.integer "1"] := by decide +kernel
    rw [Session.answer, read]
    exact congrArg (Option.map _) parsed
  have fed (limit : Nat) (bound : enough ≤ limit) : Session.answers p limit ["1", "x"] =
      some [.traced [.terminal "n"] trace, .unreadable ⟨'x', 0⟩] := by
    obtain ⟨more, rfl⟩ := Nat.exists_eq_add_of_le bound
    exact Session.answers_of_forall₂ (.cons ⟨Session.answer_add traced more, rfl⟩
      (.cons ⟨Session.answer_of_error (by decide +kernel) _, rfl⟩ .nil))
  have given (limit : Nat) : Session.answers p limit ["\x0b1", " x"] =
      some [.unreadable ⟨'\x0b', 0⟩, .unreadable ⟨'x', 1⟩] :=
    Session.answers_of_forall₂ (.cons ⟨Session.answer_of_error (by decide +kernel) _, rfl⟩
      (.cons ⟨Session.answer_of_error (by decide +kernel) _, rfl⟩ .nil))
  refine ⟨p, enough,
    transcript ⟨none, [], true, true⟩ p [.traced [.terminal "n"] trace, .unreadable ⟨'x', 0⟩],
    transcript ⟨none, ["\x0b1", " x"], true, true⟩ p
      [.unreadable ⟨'\x0b', 0⟩, .unreadable ⟨'x', 1⟩], accepted,
    fun line mem => ⟨entries line mem, ends_calculator built _, ends_calculator built _⟩, typed,
    fun limit bound => ⟨?_, ?_⟩, ?_, ?_, ?_⟩
  · rw [run_eq accepted]
    have lines : linesOf ⟨none, [], true, true⟩ "\x0b1\n x\n" = ["1", "x"] := by decide
    rw [lines, fed limit bound]
    rfl
  · rw [run_eq accepted]
    change Option.map _ (Session.answers p limit ["\x0b1", " x"]) = _
    rw [given]
    rfl
  · intro same
    rw [output_transcript, output_transcript] at same
    have lengths := congrArg String.length same
    simp [Transcript.output, Answer.messages, Session.tokenSection] at lengths
  · rfl
  · rfl

end Calculator

end CanonicalLR.Command
