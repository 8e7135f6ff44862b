import CanonicalLR.Machine.Reductions

/-!
Runs as sequences of steps that leave their rows behind. A run has ended with a trace exactly if its
steps, one row for each, have come to a configuration that halts; how many steps were allowed does not
matter beyond that. The configurations of the rows are those that the run reaches.
-/

set_option autoImplicit false
set_option relaxedAutoImplicit false

namespace CanonicalLR

theorem Trace.hadError_iff {trace : Trace} :
    trace.hadError = true ↔ ∃ row ∈ trace.rows, row.action = .error := by
  simp only [Trace.hadError, List.any_eq_true, beq_iff_eq]

theorem Trace.hadError_eq_false_iff {trace : Trace} :
    trace.hadError = false ↔ ∀ row ∈ trace.rows, row.action ≠ .error := by
  simp only [Trace.hadError, List.any_eq_false, beq_iff_eq]

namespace Machine

/-- A machine comes from one configuration to another by steps, with a row for each. -/
inductive Steps (m : Machine) : Configuration → List TraceRow → Configuration → Prop
  | refl (c : Configuration) : Steps m c [] c
  | head {c c' d : Configuration} {rows : List TraceRow} (step : m.step c = .next c')
      (rest : Steps m c' rows d) : Steps m c (m.rowOf c :: rows) d

variable {m : Machine} {input : List Symbol}

/-- Where a right-hand side stands on a stack and the state below it has a goto, the reduction enters
it. -/
theorem reduce_append {popped below : List Frame} {production : Production}
    (length : popped.length = production.rhs.length) {rule target : Nat}
    (named : m.grammar.rule? rule = some production)
    (goto : m.table.action (topState below) production.lhs = .goto target) (input : List Symbol) :
    m.reduce ⟨popped ++ below, input⟩ rule = .ok ⟨⟨production.lhs, target⟩ :: below, input⟩ := by
  have enough : ¬ (popped ++ below).length < production.rhs.length := by
    rw [List.length_append]
    omega
  have dropped : (popped ++ below).drop production.rhs.length = below := by
    rw [← length, List.drop_left]
  simp only [reduce, named, if_neg enough, dropped, goto]

/-- A shorter end of a stack ends below its top frame. -/
private theorem suffix_of_lt {frame : Frame} {other below : List Frame}
    (ends : other <:+ frame :: below) (less : other.length < (frame :: below).length) :
    other <:+ below :=
  (List.suffix_cons_iff.mp ends).resolve_left fun same => by simp [same] at less

/-- Unwinding leaves the longest end of a stack, short of all of it, on which the table acts. -/
theorem longest_of_unwind {t : ActionTable} {symbol : Symbol} {stack below : List Frame}
    (h : unwind t symbol stack = some below) :
    below <:+ stack ∧ below.length < stack.length ∧ t.action (topState below) symbol ≠ .error ∧
      ∀ other, other <:+ stack → other.length < stack.length →
        t.action (topState other) symbol ≠ .error → other <:+ below := by
  induction stack with
  | nil => cases h
  | cons frame stack ih =>
    unfold unwind at h
    split at h
    · next errs =>
      obtain ⟨ends, less, acts, longest⟩ := ih h
      refine ⟨ends.trans (List.suffix_cons frame stack), Nat.lt_succ_of_lt less, acts,
        fun other ends' less' acts' => ?_⟩
      have inside := suffix_of_lt ends' less'
      -- the end itself is not one on which the table acts
      have shorter : other.length < stack.length := by
        refine Nat.lt_of_le_of_ne inside.length_le fun same => acts' ?_
        rw [inside.eq_of_length same]
        exact beq_iff_eq.mp errs
      exact longest other inside shorter acts'
    · next acts =>
      obtain rfl := Option.some.inj h
      exact ⟨List.suffix_cons frame stack, Nat.lt_succ_self _, by simpa using acts,
        fun other ends' less' _ => suffix_of_lt ends' less'⟩

/-- Unwinding fails if the table acts on no end of the stack short of all of it. -/
theorem action_eq_error_of_unwind {t : ActionTable} {symbol : Symbol} {stack : List Frame}
    (h : unwind t symbol stack = none) (other : List Frame) (ends : other <:+ stack)
    (less : other.length < stack.length) : t.action (topState other) symbol = .error := by
  induction stack with
  | nil => simp at less
  | cons frame stack ih =>
    unfold unwind at h
    split at h
    · next errs =>
      have inside := suffix_of_lt ends less
      rcases Nat.lt_or_ge other.length stack.length with shorter | long
      · exact ih h inside shorter
      · rw [inside.eq_of_length_le long]
        exact beq_iff_eq.mp errs
    · cases h

private theorem reduce_congr {c d : Configuration} {rule : Nat} (h : m.reduce c rule = .ok d)
    (rest : List Symbol) :
    d.input = c.input ∧ m.reduce ⟨c.stack, rest⟩ rule = .ok ⟨d.stack, rest⟩ := by
  unfold reduce at h ⊢
  cases named : m.grammar.rule? rule with
  | none => simp [named] at h
  | some production =>
    by_cases short : c.stack.length < production.rhs.length
    · simp [named, short] at h
    · simp only [named, if_neg short] at h ⊢
      split at h
      · cases h
        exact ⟨rfl, rfl⟩
      · cases h

/-- A step depends on nothing but the stack and the current symbol. It leaves the input as it is, or
takes the symbol by a shift or a goto. -/
theorem step_congr {c d : Configuration} (next : m.step c = .next d) :
    (d.input = c.input ∧ ∀ rest : List Symbol, rest.headD .endMark = c.current →
      m.step ⟨c.stack, rest⟩ = .next ⟨d.stack, rest⟩) ∨
    ∃ target, (m.action c = .shift target ∨ m.action c = .goto target) ∧ d = c.take target ∧
      ∀ rest : List Symbol, rest.headD .endMark = c.current →
        m.step ⟨c.stack, rest⟩ = .next ⟨d.stack, rest.tail⟩ := by
  have action : ∀ rest : List Symbol, rest.headD .endMark = c.current →
      m.action ⟨c.stack, rest⟩ = m.action c := fun rest same => by
    change m.table.action c.top (rest.headD .endMark) = m.table.action c.top c.current
    rw [same]
  have current : ∀ rest : List Symbol, rest.headD .endMark = c.current →
      (⟨c.stack, rest⟩ : Configuration).current = c.current := fun _ same => same
  cases acts : m.action c with
  | error =>
    simp only [step, acts, recover] at next
    cases found : unwind m.table c.current c.stack with
    | none => simp [found] at next
    | some below =>
      simp only [found, Option.map_some] at next
      cases next
      refine .inl ⟨rfl, fun rest same => ?_⟩
      simp only [step, action rest same, acts, recover, current rest same, found, Option.map_some]
  | shift target =>
    simp only [step, acts] at next
    cases next
    refine .inr ⟨target, .inl rfl, rfl, fun rest same => ?_⟩
    simp only [step, action rest same, acts, Configuration.take, current rest same]
  | goto target =>
    simp only [step, acts] at next
    cases next
    refine .inr ⟨target, .inr rfl, rfl, fun rest same => ?_⟩
    simp only [step, action rest same, acts, Configuration.take, current rest same]
  | reduce rule =>
    simp only [step, acts] at next
    cases reduced : m.reduce c rule with
    | error defect => simp [reduced] at next
    | ok c' =>
      simp only [reduced] at next
      cases next
      refine .inl ⟨(reduce_congr reduced []).1, fun rest same => ?_⟩
      simp only [step, action rest same, acts, (reduce_congr reduced rest).2]
  | accept => simp [step, acts] at next

/-- What is left of the input after a step is an end of what was left before. -/
theorem input_suffix_of_step {c d : Configuration} (next : m.step c = .next d) :
    d.input <:+ c.input := by
  rcases step_congr next with ⟨same, _⟩ | ⟨_, _, rfl, _⟩
  · exact ⟨[], same⟩
  · exact List.tail_suffix _

/-- The input does not grow. -/
theorem length_input_le_of_step {c d : Configuration} (next : m.step c = .next d) :
    d.input.length ≤ c.input.length := (input_suffix_of_step next).length_le

theorem action_of_halt {c : Configuration} {verdict : Verdict} (halts : m.step c = .halt verdict) :
    (verdict = .accepted ∧ m.action c = .accept) ∨ (verdict = .rejected ∧ m.action c = .error) := by
  cases acts : m.action c with
  | accept =>
    simp only [step, acts] at halts
    exact .inl ⟨(Step.halt.inj halts).symm, rfl⟩
  | error =>
    simp only [step, acts] at halts
    split at halts
    · cases halts
    · exact .inr ⟨(Step.halt.inj halts).symm, rfl⟩
  | shift target =>
    simp only [step, acts] at halts
    cases halts
  | goto target =>
    simp only [step, acts] at halts
    cases halts
  | reduce rule =>
    simp only [step, acts] at halts
    split at halts <;> cases halts

namespace Steps

theorem single {c c' : Configuration} (step : m.step c = .next c') :
    m.Steps c [m.rowOf c] c' := .head step (.refl c')

theorem trans {c d e : Configuration} {first second : List TraceRow}
    (left : m.Steps c first d) (right : m.Steps d second e) : m.Steps c (first ++ second) e := by
  induction left with
  | refl => exact right
  | head step _ ih => exact .head step (ih right)

theorem reaches {c d : Configuration} {rows : List TraceRow} (steps : m.Steps c rows d) {n : Nat}
    (before : m.Reaches input n c) : m.Reaches input (n + rows.length) d := by
  induction steps generalizing n with
  | refl => exact before
  | head step _ ih =>
    have later := ih (before.next step)
    rwa [Nat.add_right_comm] at later

/-- Every row was made in a configuration of the run, from which the steps went on. -/
theorem exists_of_mem {c d : Configuration} {rows : List TraceRow} (steps : m.Steps c rows d)
    {row : TraceRow} (mem : row ∈ rows) : ∃ before after e e', rows = before ++ row :: after ∧
      row = m.rowOf e ∧ m.Steps c before e ∧ m.step e = .next e' ∧ m.Steps e' after d := by
  induction steps with
  | refl => cases mem
  | @head c c' d rows step rest ih =>
    rcases List.mem_cons.mp mem with rfl | later
    · exact ⟨[], rows, c, c', rfl, rfl, .refl c, step, rest⟩
    · obtain ⟨before, after, e, e', rfl, same, first, next, second⟩ := ih later
      exact ⟨_ :: before, after, e, e', rfl, same, .head step first, next, second⟩

/-- Behind the row of a step stands the row of the configuration that the step leads to. -/
theorem getElem?_succ {c d : Configuration} {rows : List TraceRow} (steps : m.Steps c rows d)
    {i : Nat} {row : TraceRow} (here : rows[i]? = some row) : ∃ e e', row = m.rowOf e ∧
      m.step e = .next e' ∧ (rows ++ [m.rowOf d])[i + 1]? = some (m.rowOf e') := by
  induction steps generalizing i with
  | refl => simp at here
  | @head c c' d rows step rest ih =>
    cases i with
    | zero =>
      obtain rfl := Option.some.inj here
      refine ⟨c, c', rfl, step, ?_⟩
      cases rest <;> rfl
    | succ i =>
      obtain ⟨e, e', same, next, later⟩ := ih here
      exact ⟨e, e', same, next, later⟩

/-- Every row, and that of the configuration which the steps lead to, was made in a configuration of
the run. -/
theorem exists_reaches {d : Configuration} {rows : List TraceRow}
    (steps : m.Steps (initial input) rows d) :
    ∀ row ∈ rows ++ [m.rowOf d], ∃ n c, m.Reaches input n c ∧ row = m.rowOf c := by
  intro row mem
  rcases List.mem_append.mp mem with mem | mem
  · obtain ⟨_, _, c, _, _, same, first, _, _⟩ := steps.exists_of_mem mem
    exact ⟨_, c, first.reaches .start, same⟩
  · exact ⟨_, d, steps.reaches .start, List.mem_singleton.mp mem⟩

/-- What is left of the input at any row is an end of what was left at the start. -/
theorem input_suffix {c d : Configuration} {rows : List TraceRow} (steps : m.Steps c rows d) :
    ∀ row ∈ rows ++ [m.rowOf d], row.configuration.input <:+ c.input := by
  induction steps with
  | refl c =>
    intro row mem
    obtain rfl := List.mem_singleton.mp mem
    exact List.suffix_refl _
  | @head c c' d rows step _ ih =>
    intro row mem
    rcases List.mem_cons.mp mem with rfl | later
    · exact List.suffix_refl _
    · exact (ih row later).trans (input_suffix_of_step step)

/-- From row to row the rest of the input becomes an end of itself. -/
theorem pairwise_input {c d : Configuration} {rows : List TraceRow} (steps : m.Steps c rows d) :
    (rows ++ [m.rowOf d]).Pairwise fun earlier later =>
      later.configuration.input <:+ earlier.configuration.input := by
  induction steps with
  | refl c => exact List.pairwise_singleton _ _
  | head step rest ih =>
    exact .cons (fun row later => (rest.input_suffix row later).trans (input_suffix_of_step step)) ih

end Steps

/-- Steps without an error, with the productions that they reduce by. -/
def Replays (m : Machine) (c : Configuration) (productions : List Production) (d : Configuration) :
    Prop :=
  ∃ rows, m.Steps c rows d ∧ (m.reductions rows).map (·.1) = productions ∧
    ∀ row ∈ rows, row.action ≠ .error

namespace Replays

theorem refl (c : Configuration) : m.Replays c [] c := ⟨[], .refl c, rfl, nofun⟩

theorem trans {c d e : Configuration} {first second : List Production}
    (left : m.Replays c first d) (right : m.Replays d second e) :
    m.Replays c (first ++ second) e := by
  obtain ⟨rows, steps, rfl, clean⟩ := left
  obtain ⟨rows', steps', rfl, clean'⟩ := right
  refine ⟨rows ++ rows', steps.trans steps', by simp [reductions], fun row mem => ?_⟩
  exact (List.mem_append.mp mem).elim (clean row) (clean' row)

theorem shift {c : Configuration} {target : Nat} (action : m.action c = .shift target) :
    m.Replays c [] (c.take target) := by
  have step : m.step c = .next (c.take target) := by simp only [step, action]
  refine ⟨_, .single step, ?_, ?_⟩
  · simp [reductions, reduction?, rowOf, action]
  · simp [rowOf, action]

theorem reduce {c c' : Configuration} {rule : Nat} {production : Production}
    (action : m.action c = .reduce rule) (named : m.grammar.rule? rule = some production)
    (step : m.step c = .next c') : m.Replays c [production] c' := by
  refine ⟨_, .single step, ?_, ?_⟩
  · simp [reductions, reduction?, rowOf, action, named]
  · simp [rowOf, action]

end Replays

/-- What a run reaches it comes to with a row for each step. -/
theorem Reaches.exists_steps {n : Nat} {c : Configuration} (h : m.Reaches input n c) :
    ∃ rows, rows.length = n ∧ m.Steps (initial input) rows c := by
  induction h with
  | start => exact ⟨[], rfl, .refl _⟩
  | next _ step ih =>
    obtain ⟨rows, length, steps⟩ := ih
    exact ⟨rows ++ [m.rowOf _], by simp [length], steps.trans (.single step)⟩

/-- A run that has met no error before a configuration comes to it by rows without errors. -/
theorem Reaches.exists_clean_steps {n : Nat} {c : Configuration} (reaches : m.Reaches input n c)
    (clean : ∀ k < n, ∀ d, m.Reaches input k d → m.action d ≠ .error) :
    ∃ rows, m.Steps (initial input) rows c ∧ ∀ row ∈ rows, row.action ≠ .error := by
  obtain ⟨rows, rfl, steps⟩ := reaches.exists_steps
  refine ⟨rows, steps, fun row mem => ?_⟩
  obtain ⟨before, after, d, _, rfl, rfl, first, _, _⟩ := steps.exists_of_mem mem
  have earlier := first.reaches .start
  rw [Nat.zero_add] at earlier
  exact clean _ (by simp) d earlier

/-- A run that goes on behind a configuration takes the step from it. -/
theorem Reaches.exists_step {n k : Nat} {c d : Configuration} (reaches : m.Reaches input n c)
    (later : m.Reaches input k d) (less : n < k) :
    ∃ e, m.step c = .next e ∧ m.Reaches input (n + 1) e := by
  induction later with
  | start => omega
  | @next k e d before step ih =>
    rcases Nat.lt_or_ge n k with less' | same
    · exact ih less'
    · obtain rfl : n = k := by omega
      rw [← reaches.unique before] at step
      exact ⟨d, step, reaches.next step⟩

theorem Reaches.length_input_le {n k : Nat} {c d : Configuration} (reaches : m.Reaches input n c)
    (later : m.Reaches input k d) (le : n ≤ k) : d.input.length ≤ c.input.length := by
  induction later with
  | start =>
    obtain rfl : n = 0 := by omega
    exact Nat.le_of_eq (by rw [reaches.unique .start])
  | @next k e d before step ih =>
    rcases Nat.lt_or_ge n (k + 1) with less | same
    · exact Nat.le_trans (length_input_le_of_step step) (ih (by omega))
    · obtain rfl : n = k + 1 := by omega
      exact Nat.le_of_eq (by rw [reaches.unique (before.next step)])

/-- On its way along rows without errors a run meets none. -/
theorem Steps.action_ne_error {c d : Configuration} {rows : List TraceRow}
    (steps : m.Steps c rows d) (clean : ∀ row ∈ rows, row.action ≠ .error) {n : Nat}
    (reaches : m.Reaches input n c) {j : Nat} (less : j < rows.length) {e : Configuration}
    (between : m.Reaches input (n + j) e) : m.action e ≠ .error := by
  induction steps generalizing n j with
  | refl => simp at less
  | @head c c' d rows step rest ih =>
    obtain ⟨first, later⟩ := List.forall_mem_cons.mp clean
    cases j with
    | zero =>
      rw [between.unique reaches]
      exact first
    | succ j =>
      refine ih later (reaches.next step) (by simpa using less) ?_
      rwa [Nat.add_assoc, Nat.add_comm 1 j]

/-- A run that never ends goes on for any number of steps, and its input does not grow. -/
theorem Reaches.exists_later
    (endless : ∀ n c, m.Reaches input n c → ∃ d, m.step c = .next d) {n : Nat} {c : Configuration}
    (reaches : m.Reaches input n c) (k : Nat) :
    ∃ d, m.Reaches input (n + k) d ∧ d.input.length ≤ c.input.length := by
  induction k with
  | zero => exact ⟨c, reaches, Nat.le_refl _⟩
  | succ k ih =>
    obtain ⟨d, there, shorter⟩ := ih
    obtain ⟨e, next⟩ := endless _ d there
    exact ⟨e, there.next next, Nat.le_trans (length_input_le_of_step next) shorter⟩

private theorem steps_of_runFrom {limit : Nat} {rows : List TraceRow} {c : Configuration}
    {result : Except Defect Trace} (h : m.runFrom limit rows c = some result) :
    ∃ more d, m.Steps c more d ∧
      ((∃ verdict, m.step d = .halt verdict ∧
        result = .ok ⟨rows.reverse ++ more ++ [m.rowOf d], verdict⟩) ∨
      ∃ defect, m.step d = .fail defect ∧ result = .error defect) := by
  induction limit generalizing rows c with
  | zero => cases h
  | succ limit ih =>
    unfold runFrom at h
    cases step : m.step c with
    | next c' =>
      simp only [step] at h
      obtain ⟨more, d, steps, ended⟩ := ih h
      refine ⟨_, d, .head step steps, ?_⟩
      simpa using ended
    | halt verdict =>
      simp only [step] at h
      cases h
      exact ⟨[], c, .refl c, .inl ⟨verdict, step, by simp⟩⟩
    | fail defect =>
      simp only [step] at h
      cases h
      exact ⟨[], c, .refl c, .inr ⟨defect, step, rfl⟩⟩

/-- A trace holds the rows of the steps up to the configuration that halts, and the row of that. -/
theorem steps_of_run {limit : Nat} {trace : Trace} (h : m.run limit input = some (.ok trace)) :
    ∃ rows c, m.Steps (initial input) rows c ∧ m.step c = .halt trace.verdict ∧
      trace.rows = rows ++ [m.rowOf c] := by
  obtain ⟨rows, c, steps, ⟨verdict, halts, same⟩ | ⟨_, _, same⟩⟩ := steps_of_runFrom h
  · cases same
    exact ⟨rows, c, steps, halts, by simp⟩
  · cases same

/-- A run that ends in a defect has come to a configuration whose step finds it. -/
theorem reaches_of_run_error {limit : Nat} {defect : Defect}
    (h : m.run limit input = some (.error defect)) :
    ∃ n c, m.Reaches input n c ∧ m.step c = .fail defect := by
  obtain ⟨rows, c, steps, ⟨_, _, same⟩ | ⟨_, fails, same⟩⟩ := steps_of_runFrom h
  · cases same
  · cases same
    exact ⟨_, c, steps.reaches .start, fails⟩

private theorem runFrom_of_steps {c d : Configuration} {more : List TraceRow}
    (steps : m.Steps c more d) {verdict : Verdict} (halts : m.step d = .halt verdict)
    (rows : List TraceRow) : m.runFrom (more.length + 1) rows c =
      some (.ok ⟨rows.reverse ++ more ++ [m.rowOf d], verdict⟩) := by
  induction steps generalizing rows with
  | refl => simp [runFrom, halts]
  | head step _ ih =>
    unfold runFrom
    simp only [step]
    simpa using ih halts (m.rowOf _ :: rows)

theorem run_of_steps {c : Configuration} {rows : List TraceRow}
    (steps : m.Steps (initial input) rows c) {verdict : Verdict}
    (halts : m.step c = .halt verdict) :
    m.run (rows.length + 1) input = some (.ok ⟨rows ++ [m.rowOf c], verdict⟩) := by
  simpa [run] using runFrom_of_steps steps halts []

/-- A run that comes to an acceptance without an error ends there, with the productions on the way. -/
theorem Replays.exists_run {productions : List Production} {c : Configuration}
    (replays : m.Replays (initial input) productions c) (action : m.action c = .accept) :
    ∃ limit trace, m.run limit input = some (.ok trace) ∧ trace.isAccepted = true ∧
      trace.hadError = false ∧ (m.reductions trace.rows).map (·.1) = productions := by
  obtain ⟨rows, steps, rfl, clean⟩ := replays
  have halts : m.step c = .halt .accepted := by simp only [step, action]
  refine ⟨_, _, run_of_steps steps halts, rfl, ?_, ?_⟩
  · refine Trace.hadError_eq_false_iff.mpr fun row mem => ?_
    rcases List.mem_append.mp mem with mem | mem
    · exact clean row mem
    · rw [List.mem_singleton.mp mem]
      simp [rowOf, action]
  · simp [reductions, reduction?, rowOf, action]

private theorem runFrom_of_fail {c d : Configuration} {more : List TraceRow}
    (steps : m.Steps c more d) {defect : Defect} (fails : m.step d = .fail defect)
    (rows : List TraceRow) : m.runFrom (more.length + 1) rows c = some (.error defect) := by
  induction steps generalizing rows with
  | refl => simp [runFrom, fails]
  | head step _ ih =>
    unfold runFrom
    simp only [step]
    exact ih fails _

/-- A run ends in the defect that the step from a configuration on its way finds. -/
theorem run_of_fail {n : Nat} {c : Configuration} {defect : Defect}
    (reaches : m.Reaches input n c) (fails : m.step c = .fail defect) :
    m.run (n + 1) input = some (.error defect) := by
  obtain ⟨rows, rfl, steps⟩ := reaches.exists_steps
  exact runFrom_of_fail steps fails []

/-- A run that stays among configurations from which it goes on never ends. -/
theorem run_eq_none {P : Configuration → Prop} (start : P (initial input))
    (closed : ∀ c, P c → ∃ d, m.step c = .next d ∧ P d) (limit : Nat) :
    m.run limit input = none := by
  have goes : ∀ limit rows c, P c → m.runFrom limit rows c = none := by
    intro limit
    induction limit with
    | zero => exact fun _ _ _ => rfl
    | succ limit ih =>
      intro rows c here
      obtain ⟨d, step, there⟩ := closed c here
      unfold runFrom
      simp only [step]
      exact ih _ d there
  exact goes limit [] _ start

/-- Of two sequences of steps from one configuration, one is the beginning of the other. -/
theorem Steps.total {c d e : Configuration} {first second : List TraceRow}
    (left : m.Steps c first d) (right : m.Steps c second e) :
    (∃ more, second = first ++ more ∧ m.Steps d more e) ∨
      ∃ more, first = second ++ more ∧ m.Steps e more d := by
  induction left generalizing second with
  | refl => exact .inl ⟨second, rfl, right⟩
  | @head c c' d rows step rest ih =>
    cases right with
    | refl => exact .inr ⟨_, rfl, .head step rest⟩
    | head step' rest' =>
      cases step.symm.trans step'
      rcases ih rest' with ⟨more, rfl, later⟩ | ⟨more, rfl, later⟩
      · exact .inl ⟨more, rfl, later⟩
      · exact .inr ⟨more, rfl, later⟩

/-- Where a run has halted, it reaches nothing but what it has left a row for. -/
theorem Reaches.mem_rows {n : Nat} {c d : Configuration} {rows : List TraceRow} {verdict : Verdict}
    (reaches : m.Reaches input n c) (steps : m.Steps (initial input) rows d)
    (halts : m.step d = .halt verdict) : n ≤ rows.length ∧ m.rowOf c ∈ rows ++ [m.rowOf d] := by
  obtain ⟨front, rfl, before⟩ := reaches.exists_steps
  rcases before.total steps with ⟨more, rfl, later⟩ | ⟨more, rfl, later⟩
  · refine ⟨by simp, ?_⟩
    cases later with
    | refl => simp
    | head _ _ => simp
  · cases later with
    | refl => simp
    | head step _ => cases halts.symm.trans step

/-- A trace has met an error exactly if the run reaches one. -/
theorem hadError_iff_reaches {limit : Nat} {trace : Trace}
    (h : m.run limit input = some (.ok trace)) :
    trace.hadError = true ↔ ∃ n c, m.Reaches input n c ∧ m.action c = .error := by
  obtain ⟨rows, d, steps, halts, all⟩ := steps_of_run h
  rw [Trace.hadError_iff, all]
  constructor
  · rintro ⟨row, mem, error⟩
    obtain ⟨n, c, reaches, rfl⟩ := steps.exists_reaches row mem
    exact ⟨n, c, reaches, error⟩
  · rintro ⟨n, c, reaches, error⟩
    exact ⟨m.rowOf c, (reaches.mem_rows steps halts).2, error⟩

/-- A run that accepts in spite of an error has recovered from it. -/
theorem exists_step_of_error {limit : Nat} {trace : Trace}
    (h : m.run limit input = some (.ok trace)) (accepted : trace.isAccepted = true)
    (met : trace.hadError = true) : ∃ n c d, m.Reaches input n c ∧ m.action c = .error ∧
      m.step c = .next d := by
  obtain ⟨rows, d, steps, halts, all⟩ := steps_of_run h
  obtain ⟨row, mem, error⟩ := Trace.hadError_iff.mp met
  rw [all] at mem
  rcases List.mem_append.mp mem with mem | mem
  · obtain ⟨_, _, c, c', _, rfl, first, next, _⟩ := steps.exists_of_mem mem
    exact ⟨_, c, c', first.reaches .start, error, next⟩
  · obtain rfl := List.mem_singleton.mp mem
    rcases action_of_halt halts with ⟨_, accepts⟩ | ⟨rejected, _⟩
    · cases accepts.symm.trans error
    · simp [Trace.isAccepted, rejected] at accepted

/-- What a computed run shows. -/
theorem exists_trace_of_any {limit : Nat} {f : Trace → Bool}
    (h : ((m.run limit input).any fun result => result.toOption.any f) = true) :
    ∃ trace, m.run limit input = some (.ok trace) ∧ f trace = true := by
  obtain ⟨result, ended, h⟩ := (Option.any_eq_true _ _).mp h
  obtain ⟨trace, same, h⟩ := (Option.any_eq_true _ _).mp h
  cases result with
  | error defect => cases same
  | ok t =>
    cases same
    exact ⟨trace, ended, h⟩

theorem run_unique {limit limit' : Nat} {result result' : Except Defect Trace}
    (h : m.run limit input = some result) (h' : m.run limit' input = some result') :
    result = result' := by
  have more := runFrom_add h limit'
  have more' := runFrom_add h' limit
  rw [Nat.add_comm, more] at more'
  exact Option.some.inj more'

end Machine

end CanonicalLR
