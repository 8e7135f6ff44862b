import CanonicalLR.Machine.Loop
import CanonicalLR.Proofs.Machine.Stacks

/-!
The loop on two stacks writes the rows of the run on frames. Its turns are the steps of that run, its
flag says whether one of the rows so far has an error, and the loop ends, with a verdict or a defect,
exactly if the run does.
-/

set_option autoImplicit false
set_option relaxedAutoImplicit false

namespace CanonicalLR

variable {m : Machine} {input : List Symbol}

theorem reverse_statesOf (c : Configuration) : (statesOf c.stack).reverse = c.states := by
  simp [statesOf, Configuration.states]

theorem Configuration.length_states (c : Configuration) :
    c.states.length = c.symbols.length + 1 := by
  simp [states, symbols]

theorem getLast?_reverse_statesOf (stack : List Frame) :
    (statesOf stack).reverse.getLast? = some (topState stack) := by
  rw [List.getLast?_reverse, head?_statesOf]

theorem Configuration.getLast?_states (c : Configuration) : c.states.getLast? = some c.top := by
  rw [← reverse_statesOf, getLast?_reverse_statesOf]
  rfl

theorem Stacks.row?_stacks (c : Configuration) :
    c.stacks.row? m = some (m.rowOf c).onStacks := by
  unfold Stacks.row?
  rw [action?_stacks]
  simp [Configuration.stacks, reverse_statesOf, TraceRow.onStacks, Configuration.symbols,
    Machine.rowOf]

namespace Loop

/-- A point between two turns, seen from the run on frames: the rows of some steps are written. -/
def after (rows : List TraceRow) (c : Configuration) (verdict? : Option Verdict) : Loop :=
  ⟨c.stacks, rows.map (·.onStacks), rows.any (·.action == .error), verdict?⟩

/-- A turn is a step and writes its row. -/
theorem turn?_after (rows : List TraceRow) (c : Configuration) (verdict? : Option Verdict) :
    (after rows c verdict?).turn? m = some (match m.step c with
      | .next d => .ok (after (rows ++ [m.rowOf c]) d none)
      | .halt verdict => .ok (after (rows ++ [m.rowOf c]) c (some verdict))
      | .fail defect => .error defect) := by
  have written : (after rows c verdict?).pair.row? m = some (m.rowOf c).onStacks :=
    Stacks.row?_stacks c
  have acted : (after rows c verdict?).pair.step? m = some (m.step c).onStacks :=
    Stacks.step?_stacks c
  simp only [turn?, written, acted, Option.bind_eq_bind, Option.bind_some]
  cases m.step c <;> simp [after, Step.onStacks, TraceRow.onStacks]

theorem written_after_none (rows : List TraceRow) (c : Configuration) :
    (after rows c none).written m = (rows ++ [m.rowOf c]).map (·.onStacks) := by
  have row : c.stacks.row? m = some (m.rowOf c).onStacks := Stacks.row?_stacks c
  simp [written, row, after]

/-- A loop has ended with the rows, the flag and the verdict of a trace. -/
structure Shows (l : Loop) (trace : Trace) : Prop where
  verdict : l.verdict? = some trace.verdict
  rows : l.rows = trace.rows.map (·.onStacks)
  hadError : l.hadError = trace.hadError

theorem Shows.written {l : Loop} {trace : Trace} (shows : l.Shows trace) :
    l.written m = trace.rows.map (·.onStacks) := by
  rw [← shows.rows]
  simp [Loop.written, shows.verdict]

end Loop

namespace Machine

open Loop

private theorem turns_of_steps {first rows : List TraceRow} {c d : Configuration}
    (steps : m.Steps c rows d) (before : m.Turns input (after first c none)) :
    m.Turns input (after (first ++ rows) d none) := by
  induction steps generalizing first with
  | refl => simpa using before
  | @head c c' d rows step _ ih =>
    have turned := ih (before.turn rfl (by rw [turn?_after, step]))
    simpa using turned

/-- How far a loop has come: steps have been taken and their rows written, and unless the loop goes on
from there, it has ended with one row more. -/
theorem turns_iff {l : Loop} : m.Turns input l ↔ ∃ rows c, m.Steps (initial input) rows c ∧
    (l = after rows c none ∨
      ∃ verdict, m.step c = .halt verdict ∧ l = after (rows ++ [m.rowOf c]) c (some verdict)) := by
  constructor
  · intro turns
    induction turns with
    | start => exact ⟨[], initial input, .refl _, .inl rfl⟩
    | @turn l l' before running turn ih =>
      obtain ⟨rows, c, steps, rfl | ⟨verdict, halts, rfl⟩⟩ := ih
      · rw [turn?_after] at turn
        cases step : m.step c with
        | next d =>
          simp only [step] at turn
          cases turn
          exact ⟨_, d, steps.trans (.single step), .inl rfl⟩
        | halt verdict =>
          simp only [step] at turn
          cases turn
          exact ⟨rows, c, steps, .inr ⟨verdict, step, rfl⟩⟩
        | fail defect =>
          simp only [step] at turn
          cases turn
      · cases running
  · rintro ⟨rows, c, steps, ended⟩
    have begins : m.Turns input (after [] (initial input) none) := .start
    have running : m.Turns input (after rows c none) := turns_of_steps steps begins
    rcases ended with rfl | ⟨verdict, halts, rfl⟩
    · exact running
    · exact running.turn rfl (by rw [turn?_after, halts])

/-- The rows written are those of the steps that a run takes, and of the configuration it comes to. -/
theorem Turns.exists_steps {l : Loop} (turns : m.Turns input l) : ∃ rows c,
    m.Steps (initial input) rows c ∧ l.written m = (rows ++ [m.rowOf c]).map (·.onStacks) := by
  obtain ⟨rows, c, steps, rfl | ⟨verdict, _, rfl⟩⟩ := turns_iff.mp turns
  · exact ⟨rows, c, steps, written_after_none rows c⟩
  · exact ⟨rows, c, steps, rfl⟩

/-- The loop ends with the trace of the run. -/
theorem exists_turns_of_run {limit : Nat} {trace : Trace}
    (ended : m.run limit input = some (.ok trace)) : ∃ l, m.Turns input l ∧ l.Shows trace := by
  obtain ⟨rows, c, steps, halts, all⟩ := steps_of_run ended
  refine ⟨_, turns_iff.mpr ⟨rows, c, steps, .inr ⟨_, halts, rfl⟩⟩, rfl, ?_, ?_⟩
  · rw [all]
    rfl
  · rw [Trace.hadError, all]
    rfl

/-- A loop that has ended has run to a trace. -/
theorem Turns.exists_run {l : Loop} (turns : m.Turns input l) {verdict : Verdict}
    (ended : l.verdict? = some verdict) :
    ∃ limit trace, m.run limit input = some (.ok trace) ∧ l.Shows trace := by
  obtain ⟨rows, c, steps, rfl | ⟨verdict', halts, rfl⟩⟩ := turns_iff.mp turns
  · cases ended
  · exact ⟨_, _, run_of_steps steps halts, rfl, rfl, rfl⟩

/-- The loop fails exactly if the run does. -/
theorem exists_turns_error_iff {defect : Defect} :
    (∃ l, m.Turns input l ∧ l.verdict? = none ∧ l.turn? m = some (.error defect)) ↔
      ∃ limit, m.run limit input = some (.error defect) := by
  constructor
  · rintro ⟨l, turns, running, fails⟩
    obtain ⟨rows, c, steps, rfl | ⟨verdict, _, rfl⟩⟩ := turns_iff.mp turns
    · rw [turn?_after] at fails
      cases step : m.step c with
      | fail other =>
        simp only [step] at fails
        cases fails
        exact ⟨_, run_of_fail (steps.reaches .start) step⟩
      | next d => simp [step] at fails
      | halt verdict => simp [step] at fails
    · cases running
  · rintro ⟨limit, ended⟩
    obtain ⟨n, c, reaches, fails⟩ := reaches_of_run_error ended
    obtain ⟨rows, _, steps⟩ := reaches.exists_steps
    exact ⟨_, turns_iff.mpr ⟨rows, c, steps, .inl rfl⟩, rfl, by rw [turn?_after, fails]⟩

end Machine

end CanonicalLR
