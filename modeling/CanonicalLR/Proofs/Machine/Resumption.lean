import CanonicalLR.Proofs.Machine.Loop

/-!
Where a run goes on after an error, with any grammar and any table: at the most states from the bottom
of which the topmost acts on the current symbol, with the symbols that belong to them and the same
input. Where there are no such states the run is rejected, and it is rejected nowhere else.
-/

set_option autoImplicit false
set_option relaxedAutoImplicit false

namespace CanonicalLR

variable {m : Machine} {input : List Symbol}

/-- A part of the states from the bottom belongs to the frames from the bottom. -/
theorem exists_suffix_of_prefix {stack : List Frame} {states : List Nat} (nonempty : states ≠ [])
    (below : states <+: (statesOf stack).reverse) :
    ∃ rest, rest <:+ stack ∧ states = (statesOf rest).reverse := by
  have positive := List.length_pos_iff.mpr nonempty
  refine ⟨stack.drop (stack.length + 1 - states.length), List.drop_suffix _ _, ?_⟩
  calc states
    _ = (statesOf stack).reverse.take states.length := List.prefix_iff_eq_take.mp below
    _ = ((statesOf stack).drop (stack.length + 1 - states.length)).reverse := by
      rw [List.take_reverse, length_statesOf]
    _ = (statesOf (stack.drop (stack.length + 1 - states.length))).reverse := by
      rw [drop_statesOf (by omega)]

theorem prefix_of_suffix {stack rest : List Frame} (ends : rest <:+ stack) :
    (statesOf rest).reverse <+: (statesOf stack).reverse ∧
      rest.reverse.map (·.symbol) <+: stack.reverse.map (·.symbol) := by
  obtain ⟨dropped, rfl⟩ := ends
  constructor
  · rw [List.reverse_prefix]
    exact ⟨dropped.map (·.state), by simp [statesOf]⟩
  · exact ⟨dropped.reverse.map (·.symbol), by simp⟩

namespace StackRow

/-- The states that are resumable are those of ends of the stack, short of all of it, on which the
table acts. -/
theorem resumable_iff {c : Configuration} {states : List Nat} :
    (m.rowOf c).onStacks.Resumable m.table states ↔
      ∃ rest, rest <:+ c.stack ∧ rest.length < c.stack.length ∧
        m.table.action (topState rest) c.current ≠ .error ∧ states = (statesOf rest).reverse := by
  have all : (m.rowOf c).onStacks.states = (statesOf c.stack).reverse := (reverse_statesOf c).symm
  constructor
  · rintro ⟨below, proper, top, last, acts⟩
    rw [all] at below proper
    have nonempty : states ≠ [] := by
      rintro rfl
      cases last
    obtain ⟨rest, ends, rfl⟩ := exists_suffix_of_prefix nonempty below
    rw [getLast?_reverse_statesOf] at last
    obtain rfl := Option.some.inj last
    exact ⟨rest, ends, by simpa [length_statesOf] using proper, acts, rfl⟩
  · rintro ⟨rest, ends, less, acts, rfl⟩
    refine ⟨?_, ?_, _, getLast?_reverse_statesOf rest, acts⟩
    · rw [all]
      exact (prefix_of_suffix ends).1
    · rw [all]
      simpa [length_statesOf] using less

/-- After an error the next row goes on from the row of the error. -/
theorem resumes_of_step {c d : Configuration} (error : m.action c = .error)
    (next : m.step c = .next d) : (m.rowOf c).onStacks.Resumes m.table (m.rowOf d).onStacks := by
  simp only [Machine.step, error, Machine.recover] at next
  cases unwound : Machine.unwind m.table c.current c.stack with
  | none => simp [unwound] at next
  | some rest =>
    simp only [unwound, Option.map_some] at next
    cases next
    obtain ⟨ends, less, acts, longest⟩ := Machine.longest_of_unwind unwound
    refine ⟨resumable_iff.mpr ⟨rest, ends, less, acts, (reverse_statesOf _).symm⟩,
      fun states resumable => ?_, (prefix_of_suffix ends).2, ?_, rfl, acts⟩
    · obtain ⟨other, ends', less', acts', rfl⟩ := resumable_iff.mp resumable
      have within := (prefix_of_suffix (longest other ends' less' acts')).1
      rwa [reverse_statesOf ⟨rest, c.input⟩] at within
    · simp [TraceRow.onStacks, Machine.rowOf, Configuration.states, Configuration.symbols]

/-- A run that ends in an error is rejected, and nothing is resumable. -/
theorem not_resumable_of_halt {c : Configuration} {verdict : Verdict} (error : m.action c = .error)
    (halts : m.step c = .halt verdict) :
    verdict = .rejected ∧ ∀ states, ¬ (m.rowOf c).onStacks.Resumable m.table states := by
  simp only [Machine.step, error, Machine.recover] at halts
  cases unwound : Machine.unwind m.table c.current c.stack with
  | none =>
    simp only [unwound, Option.map_none] at halts
    refine ⟨(Step.halt.inj halts).symm, fun states resumable => ?_⟩
    obtain ⟨rest, ends, less, acts, _⟩ := resumable_iff.mp resumable
    exact acts (Machine.action_eq_error_of_unwind unwound rest ends less)
  | some rest => simp [unwound] at halts

end StackRow

namespace Machine

open Loop

/-- Among the rows of steps the row of an error is followed by one that goes on from it. -/
private theorem Steps.resumes {c d : Configuration} {rows : List TraceRow} (steps : m.Steps c rows d)
    {i : Nat} {row : StackRow} (here : (rows.map (·.onStacks))[i]? = some row)
    (error : row.action = .error) :
    ∃ next, ((rows ++ [m.rowOf d]).map (·.onStacks))[i + 1]? = some next ∧
      row.Resumes m.table next := by
  rw [List.getElem?_map] at here
  obtain ⟨known, there, rfl⟩ := Option.map_eq_some_iff.mp here
  obtain ⟨e, e', rfl, step, later⟩ := steps.getElem?_succ there
  exact ⟨_, by rw [List.getElem?_map, later]; rfl, StackRow.resumes_of_step error step⟩

/-- The row of an error is followed by one that goes on from it, or it is the last row of a rejected
run and nothing is resumable. -/
theorem Turns.resumes_or_rejected {l : Loop} (turns : m.Turns input l) {i : Nat} {row : StackRow}
    (here : l.rows[i]? = some row) (error : row.action = .error) :
    (∃ next, (l.written m)[i + 1]? = some next ∧ row.Resumes m.table next) ∨
      i + 1 = l.rows.length ∧ l.verdict? = some .rejected ∧
        ∀ states, ¬ row.Resumable m.table states := by
  obtain ⟨rows, c, steps, rfl | ⟨verdict, halts, rfl⟩⟩ := turns_iff.mp turns
  · rw [written_after_none]
    exact .inl (steps.resumes here error)
  · change ((rows ++ [m.rowOf c]).map (·.onStacks))[i]? = some row at here
    rw [List.map_append] at here
    rcases Nat.lt_or_ge i rows.length with before | last
    · rw [List.getElem?_append_left (by simpa using before)] at here
      exact .inl (steps.resumes here error)
    · rw [List.getElem?_append_right (by simpa using last), List.map_singleton,
        List.getElem?_singleton, List.length_map] at here
      split at here
      · next start =>
        obtain rfl := Option.some.inj here
        obtain ⟨rfl, nothing⟩ := StackRow.not_resumable_of_halt error halts
        refine .inr ⟨?_, rfl, nothing⟩
        simp only [after, List.length_map, List.length_append, List.length_singleton]
        omega
      · cases here

/-- A loop that has ended has accepted in its last row, or been rejected there by an error behind which
nothing is resumable. -/
theorem Turns.last_row {l : Loop} (turns : m.Turns input l) {verdict : Verdict}
    (ended : l.verdict? = some verdict) : ∃ rows row, l.rows = rows ++ [row] ∧
      ((verdict = .accepted ∧ row.action = .accept) ∨
        verdict = .rejected ∧ row.action = .error ∧ ∀ states, ¬ row.Resumable m.table states) := by
  obtain ⟨rows, c, _, rfl | ⟨verdict', halts, rfl⟩⟩ := turns_iff.mp turns
  · cases ended
  · cases ended
    refine ⟨rows.map (·.onStacks), (m.rowOf c).onStacks, by simp [after], ?_⟩
    rcases action_of_halt halts with accepted | ⟨rejected, error⟩
    · exact .inl accepted
    · exact .inr ⟨rejected, error, (StackRow.not_resumable_of_halt error halts).2⟩

theorem Turns.hadError_iff {l : Loop} (turns : m.Turns input l) :
    l.hadError = true ↔ ∃ row ∈ l.rows, row.action = .error := by
  have flag : ∀ rows c verdict?, (after rows c verdict?).hadError = true ↔
      ∃ row ∈ (after rows c verdict?).rows, row.action = .error := by
    intro rows c verdict?
    constructor
    · intro raised
      obtain ⟨row, mem, error⟩ := List.any_eq_true.mp raised
      exact ⟨row.onStacks, List.mem_map_of_mem mem, beq_iff_eq.mp error⟩
    · rintro ⟨_, written, error⟩
      obtain ⟨row, mem, rfl⟩ := List.mem_map.mp written
      exact List.any_eq_true.mpr ⟨row, mem, beq_iff_eq.mpr error⟩
  obtain ⟨rows, c, _, rfl | ⟨verdict, _, rfl⟩⟩ := turns_iff.mp turns
  · exact flag rows c none
  · exact flag _ c (some verdict)

/-- A turn that writes an error does not fail. -/
theorem Turns.exists_turn_of_error {l : Loop} (turns : m.Turns input l)
    (running : l.verdict? = none) {row : StackRow} (row? : l.pair.row? m = some row)
    (error : row.action = .error) : ∃ l', l.turn? m = some (.ok l') ∧ l'.rows = l.rows ++ [row] := by
  obtain ⟨rows, c, _, rfl | ⟨verdict, _, rfl⟩⟩ := turns_iff.mp turns
  · obtain rfl := Option.some.inj ((Stacks.row?_stacks c).symm.trans row?)
    rw [turn?_after]
    cases step : m.step c with
    | next d => exact ⟨_, rfl, List.map_append⟩
    | halt verdict => exact ⟨_, rfl, List.map_append⟩
    | fail defect =>
      have acts : m.action c = .error := error
      simp only [Machine.step, acts] at step
      split at step <;> cases step
  · cases running

/-- In a run on any input with any grammar and any table, behind the row of an error: if states are
resumable there, the next row goes on at the most that are; if none are, the row is the last and the
run is rejected. A run is rejected nowhere else, and accepted nowhere but in a row that accepts; the flag
is raised exactly if there is a row with an error; and a turn that meets an error does not fail. The loop
ends with the rows, the flag and the verdict of the trace if the run ends, and otherwise fails with it or
goes on without end. -/
theorem resumption_spec (m : Machine) (input : List Symbol) :
    (∀ l, m.Turns input l →
      (∀ i row, l.rows[i]? = some row → row.action = .error →
        ((∃ states, row.Resumable m.table states) →
          ∃ next, (l.written m)[i + 1]? = some next ∧ row.Resumes m.table next) ∧
        ((∀ states, ¬ row.Resumable m.table states) →
          i + 1 = l.rows.length ∧ l.verdict? = some .rejected)) ∧
      (l.verdict? = some .rejected → ∃ rows row, l.rows = rows ++ [row] ∧ row.action = .error ∧
        ∀ states, ¬ row.Resumable m.table states) ∧
      (l.verdict? = some .accepted → ∃ rows row, l.rows = rows ++ [row] ∧ row.action = .accept) ∧
      (l.hadError = true ↔ ∃ row ∈ l.rows, row.action = .error) ∧
      ∀ row, l.verdict? = none → l.pair.row? m = some row → row.action = .error →
        ∃ l', l.turn? m = some (.ok l') ∧ l'.rows = l.rows ++ [row]) ∧
    (∀ limit trace, m.run limit input = some (.ok trace) →
      ∃ l, m.Turns input l ∧ l.Shows trace) ∧
    (∀ l verdict, m.Turns input l → l.verdict? = some verdict →
      ∃ limit trace, m.run limit input = some (.ok trace) ∧ l.Shows trace) ∧
    ∀ defect, (∃ l, m.Turns input l ∧ l.verdict? = none ∧ l.turn? m = some (.error defect)) ↔
      ∃ limit, m.run limit input = some (.error defect) := by
  refine ⟨fun l turns => ⟨fun i row here error => ?_, fun rejected => ?_, fun accepted => ?_,
    turns.hadError_iff, fun row running row? error => turns.exists_turn_of_error running row? error⟩,
    fun limit trace => exists_turns_of_run, fun l verdict turns ended => turns.exists_run ended,
    fun defect => exists_turns_error_iff⟩
  · rcases turns.resumes_or_rejected here error with ⟨next, later, resumes⟩ | ⟨last, rejected, nothing⟩
    · exact ⟨fun _ => ⟨next, later, resumes⟩,
        fun nothing => absurd resumes.resumable (nothing next.states)⟩
    · exact ⟨fun ⟨states, resumable⟩ => absurd resumable (nothing states), fun _ => ⟨last, rejected⟩⟩
  · obtain ⟨rows, row, all, ⟨impossible, _⟩ | ⟨_, error, nothing⟩⟩ := turns.last_row rejected
    · cases impossible
    · exact ⟨rows, row, all, error, nothing⟩
  · obtain ⟨rows, row, all, ⟨_, accepts⟩ | ⟨impossible, _⟩⟩ := turns.last_row accepted
    · exact ⟨rows, row, all, accepts⟩
    · cases impossible

/-- With the table of `E -> E + n | n` the run on `n n` goes on at state 0 from the error at the second
`n`; the run on `+` is rejected in its first row. -/
theorem resumption_spec_sums :
    let sums := (Grammar.ofStart (.nonTerminal "E")).pushAll (.nonTerminal "E")
      [[.nonTerminal "E", .terminal "+", .terminal "n"], [.terminal "n"]]
    let n := Symbol.terminal "n"
    ∃ p, Parser.ofGrammar sums = .ok p ∧
      (∃ l row next, p.machine.Turns [n, n] l ∧ l.rows[1]? = some row ∧ row.action = .error ∧
        (l.written p.machine)[2]? = some next ∧ row.Resumes p.table next ∧ l.hadError = true) ∧
      ∃ l rows row, p.machine.Turns [.terminal "+"] l ∧ l.verdict? = some .rejected ∧
        l.rows = rows ++ [row] ∧ row.action = .error ∧
          ∀ states, ¬ row.Resumable p.table states := by
  intro sums n
  have computed : ((Parser.ofGrammar sums).toOption.any fun p : Parser =>
      ((p.machine.run 6 [n, n]).any fun result => result.toOption.any fun trace =>
        decide ((trace.rows.map (·.onStacks))[1]? = some ⟨[0, 2], [n], [n, .endMark], .error⟩ ∧
          p.table.action 0 n ≠ .error)) &&
      ((p.machine.run 6 [.terminal "+"]).any fun result => result.toOption.any fun trace =>
        decide (trace.verdict = .rejected))) = true := by decide +kernel
  cases built : Parser.ofGrammar sums with
  | error e =>
    rw [built] at computed
    cases computed
  | ok p =>
    rw [built] at computed
    obtain ⟨recovers, rejects⟩ := Bool.and_eq_true_iff.mp computed
    refine ⟨p, rfl, ?_, ?_⟩
    · obtain ⟨trace, ended, shown⟩ := exists_trace_of_any recovers
      obtain ⟨here, acts⟩ := of_decide_eq_true shown
      obtain ⟨errors, traces, _⟩ := resumption_spec p.machine [n, n]
      obtain ⟨l, turns, shows⟩ := traces _ trace ended
      obtain ⟨resumption, _, _, flag, _⟩ := errors l turns
      rw [← shows.rows] at here
      obtain ⟨next, later, resumes⟩ := (resumption 1 _ here rfl).1
        ⟨[0], ⟨[2], rfl⟩, by decide, 0, rfl, acts⟩
      exact ⟨l, _, next, turns, here, rfl, later, resumes,
        flag.mpr ⟨_, List.mem_of_getElem? here, rfl⟩⟩
    · obtain ⟨trace, ended, shown⟩ := exists_trace_of_any rejects
      obtain ⟨errors, traces, _⟩ := resumption_spec p.machine [.terminal "+"]
      obtain ⟨l, turns, shows⟩ := traces _ trace ended
      have verdict := shows.verdict
      rw [of_decide_eq_true shown] at verdict
      obtain ⟨rows, row, all, error, nothing⟩ := (errors l turns).2.1 verdict
      exact ⟨l, rows, row, turns, verdict, all, error, nothing⟩

end Machine

end CanonicalLR
