import CanonicalLR.Proofs.Token.Margins
import CanonicalLR.Session

/-!
The answers of a session. More steps change no answer, and there are enough steps for all lines whose
runs end. A line with plain margins is answered as it is without them, an error in it standing behind
the margin in front.
-/

set_option autoImplicit false
set_option relaxedAutoImplicit false

namespace CanonicalLR.Session

/-- The run on what a line is read as ends, if it is read as tokens. -/
def Ends (p : Parser) (line : String) : Prop :=
  ∀ tokens, Token.ofLine line = .ok tokens →
    ∃ limit result, p.parse limit (Calculator.inputOf tokens) = some result

/-- The same answer, an error with more characters before it. -/
def Answer.shift (n : Nat) : Answer → Answer
  | .traced input trace => .traced input trace
  | .unreadable e => .unreadable (e.shift n)
  | .broken input defect => .broken input defect

/-- The answer to a line, made of the answer to what is left of it without its margins. -/
def Answer.behindLead (line : String) (answer : Answer) : Answer :=
  answer.shift (Text.lead line.toList).length

variable {p : Parser} {limit : Nat} {line : String} {lines : List String}

theorem Answer.isBroken_shift (n : Nat) (a : Answer) : (a.shift n).isBroken = a.isBroken := by
  cases a <;> rfl

theorem answer_of_error {e : LexError} (refused : Token.ofLine line = .error e) (limit : Nat) :
    answer p limit line = some (.unreadable e) := by
  rw [answer, refused]

theorem answer_add {first : Answer} (h : answer p limit line = some first) (more : Nat) :
    answer p (limit + more) line = some first := by
  unfold answer at h ⊢
  cases read : Token.ofLine line with
  | error e => simpa only [read] using h
  | ok tokens =>
    simp only [read] at h ⊢
    obtain ⟨result, parsed, same⟩ := Option.map_eq_some_iff.mp h
    have longer : p.parse (limit + more) (Calculator.inputOf tokens) = some result :=
      Machine.runFrom_add parsed more
    rw [longer]
    exact congrArg some same

theorem exists_answer (ends : Ends p line) : ∃ limit first, answer p limit line = some first := by
  unfold answer
  cases read : Token.ofLine line with
  | error e => exact ⟨0, _, rfl⟩
  | ok tokens =>
    obtain ⟨limit, result, parsed⟩ := ends tokens read
    exact ⟨limit, _, Option.map_eq_some_iff.mpr ⟨result, parsed, rfl⟩⟩

/-- The answers to lines are the first one, and those to the others unless it ends the session. -/
private theorem answers_cons {first : Answer} (h : answer p limit line = some first) :
    answers p limit (line :: lines) =
      if first.isBroken then some [first] else (answers p limit lines).map (first :: ·) := by
  rw [answers, h]

/-- Lines that are answered one by one, none of them by a defect, are all answered. -/
theorem answers_of_forall₂ {entered : List Answer}
    (each : List.Forall₂ (fun line first =>
      answer p limit line = some first ∧ first.isBroken = false) lines entered) :
    answers p limit lines = some entered := by
  induction each with
  | nil => rfl
  | cons first _ ih =>
    rw [answers_cons first.1, first.2, ih]
    rfl

theorem answers_add {entered : List Answer} (h : answers p limit lines = some entered)
    (more : Nat) : answers p (limit + more) lines = some entered := by
  induction lines generalizing entered with
  | nil => exact h
  | cons line lines ih =>
    cases here : answer p limit line with
    | none =>
      rw [answers, here] at h
      cases h
    | some first =>
      rw [answers_cons here] at h
      rw [answers_cons (answer_add here more)]
      split at h
      · next broken => rwa [if_pos broken]
      · next whole =>
        obtain ⟨others, rest, same⟩ := Option.map_eq_some_iff.mp h
        rw [if_neg whole, ih rest]
        exact congrArg some same

private theorem exists_answers (ends : ∀ line ∈ lines, Ends p line) :
    ∃ limit entered, answers p limit lines = some entered := by
  induction lines with
  | nil => exact ⟨0, [], rfl⟩
  | cons line lines ih =>
    obtain ⟨here, later⟩ := List.forall_mem_cons.mp ends
    obtain ⟨limit, first, answered⟩ := exists_answer here
    obtain ⟨limit', entered, others⟩ := ih later
    have both := answers_add others limit
    rw [Nat.add_comm] at both
    refine ⟨limit + limit', ?_⟩
    rw [answers_cons (answer_add answered limit'), both]
    split
    · exact ⟨_, rfl⟩
    · exact ⟨_, rfl⟩

/-- All lines whose runs end are answered, in one way, from some number of steps on. -/
theorem exists_answers_from (ends : ∀ line ∈ lines, Ends p line) :
    ∃ enough entered, ∀ limit, enough ≤ limit → answers p limit lines = some entered := by
  obtain ⟨enough, entered, answered⟩ := exists_answers ends
  refine ⟨enough, entered, fun limit bound => ?_⟩
  obtain ⟨more, rfl⟩ := Nat.exists_eq_add_of_le bound
  exact answers_add answered more

theorem length_le_of_answers {entered : List Answer} (h : answers p limit lines = some entered) :
    entered.length ≤ lines.length := by
  induction lines generalizing entered with
  | nil =>
    cases h
    exact Nat.le_refl 0
  | cons line lines ih =>
    cases here : answer p limit line with
    | none =>
      rw [answers, here] at h
      cases h
    | some first =>
      rw [answers_cons here] at h
      split at h
      · cases h
        exact Nat.succ_le_succ (Nat.zero_le _)
      · obtain ⟨others, rest, rfl⟩ := Option.map_eq_some_iff.mp h
        exact Nat.succ_le_succ (ih rest)

section Margins

/-- Margins keep no run from ending. -/
theorem Ends.of_trimmed (seen : ¬ Text.IsBlankText line.toList) (ends : Ends p (Text.trimmed line)) :
    Ends p line := by
  intro tokens read
  have plain : Token.PlainMargins line := by
    by_contra other
    obtain ⟨e, refused, -⟩ := Token.exists_error_of_not_plainMargins seen other
    cases read.symm.trans refused
  rw [Token.ofLine_of_plainMargins seen plain] at read
  cases bare : Token.ofLine (Text.trimmed line) with
  | error e =>
    rw [bare] at read
    cases read
  | ok others =>
    rw [bare] at read
    obtain rfl := Except.ok.inj read
    exact ends others bare

theorem answer_of_plainMargins (seen : ¬ Text.IsBlankText line.toList)
    (plain : Token.PlainMargins line) :
    answer p limit line = (answer p limit (Text.trimmed line)).map (.behindLead line) := by
  unfold answer
  rw [Token.ofLine_of_plainMargins seen plain]
  cases Token.ofLine (Text.trimmed line) with
  | error e => rfl
  | ok tokens =>
    change (p.parse limit _).map _ = ((p.parse limit _).map _).map _
    rw [Option.map_map]
    refine congrArg (Option.map · _) (funext fun result => ?_)
    cases result <;> rfl

/-- In other margins is the error that the line is answered with. -/
theorem exists_answer_of_not_plainMargins (seen : ¬ Text.IsBlankText line.toList)
    (other : ¬ Token.PlainMargins line) (limit : Nat) :
    ∃ e, answer p limit line = some (.unreadable e) ∧ Token.IsMarginFault line e := by
  obtain ⟨e, refused, fault⟩ := Token.exists_error_of_not_plainMargins seen other
  exact ⟨e, answer_of_error refused limit, fault⟩

/-- Only a line with plain margins is answered as it is without them. -/
theorem answer_eq_behindLead_iff (seen : ¬ Text.IsBlankText line.toList) :
    answer p limit line = (answer p limit (Text.trimmed line)).map (.behindLead line) ↔
      Token.PlainMargins line := by
  refine ⟨fun same => ?_, answer_of_plainMargins seen⟩
  by_contra other
  obtain ⟨e, refused, -⟩ := Token.exists_error_of_not_plainMargins seen other
  have here := same.symm.trans (answer_of_error refused limit)
  obtain ⟨first, there, shifted⟩ := Option.map_eq_some_iff.mp here
  cases first with
  | traced input trace => cases shifted
  | broken input defect => cases shifted
  | unreadable e' =>
    have moved := Answer.unreadable.inj shifted
    have read : Token.ofLine (Text.trimmed line) = .error e' := by
      unfold answer at there
      split at there
      · next e'' found =>
        cases there
        exact found
      · obtain ⟨result, -, impossible⟩ := Option.map_eq_some_iff.mp there
        cases result <;> cases impossible
    refine other ((Token.ofLine_eq_shift_iff seen).mp ?_)
    rw [refused, read, ← moved]
    rfl

/-- Lines with plain margins are answered as they are without them. -/
theorem answers_of_plainMargins (seen : ∀ line ∈ lines, ¬ Text.IsBlankText line.toList)
    (plain : ∀ line ∈ lines, Token.PlainMargins line) : answers p limit lines =
      (answers p limit (lines.map Text.trimmed)).map (List.zipWith .behindLead lines) := by
  induction lines with
  | nil => rfl
  | cons line lines ih =>
    obtain ⟨seen_line, seen⟩ := List.forall_mem_cons.mp seen
    obtain ⟨plain_line, plain⟩ := List.forall_mem_cons.mp plain
    have here : answer p limit line =
        (answer p limit (Text.trimmed line)).map (.behindLead line) :=
      answer_of_plainMargins seen_line plain_line
    rw [List.map_cons]
    cases there : answer p limit (Text.trimmed line) with
    | none =>
      rw [there] at here
      rw [answers, answers, here, there]
      rfl
    | some first =>
      rw [there] at here
      rw [answers_cons here, answers_cons there, ih seen plain, Answer.behindLead,
        Answer.isBroken_shift]
      split
      · rw [Option.map_some, List.zipWith_cons_cons, List.zipWith_nil_right]
        rfl
      · rw [Option.map_map, Option.map_map]
        rfl

end Margins

end CanonicalLR.Session
