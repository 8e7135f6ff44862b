import CanonicalLR.Machine.Stacks
import CanonicalLR.Parser
import CanonicalLR.Proofs.Machine.Runs

/-!
The machine on two stacks takes the steps of the machine on frames, with any grammar and any table:
what it reaches are frames taken apart, so there is always one state more than there are symbols,
with state 0 at the bottom, and every step has an outcome. A step fails only in a reduction, by the
first of three conditions on the rule and the stacks that it meets.
-/

set_option autoImplicit false
set_option relaxedAutoImplicit false

namespace CanonicalLR

universe u

variable {m : Machine} {input : List Symbol}

theorem head?_statesOf (stack : List Frame) : (statesOf stack).head? = some (topState stack) := by
  cases stack <;> rfl

theorem length_statesOf (stack : List Frame) : (statesOf stack).length = stack.length + 1 := by
  simp [statesOf]

theorem drop_statesOf {n : Nat} {stack : List Frame} (h : n ≤ stack.length) :
    (statesOf stack).drop n = statesOf (stack.drop n) := by
  unfold statesOf
  rw [List.drop_append_of_le_length (by simpa using h), List.map_drop]

namespace Stacks

theorem below?_of_le {α : Type u} {n : Nat} {stack : List α} (h : n ≤ stack.length) :
    below? n stack = some (stack.drop n) := if_pos h

theorem action?_stacks (c : Configuration) : c.stacks.action? m = some (m.action c) := by
  unfold action? Configuration.stacks
  rw [head?_statesOf]
  rfl

theorem reduce?_stacks (c : Configuration) (rule : Nat) :
    c.stacks.reduce? m rule = some (match m.reduce c rule with
      | .ok d => .next d.stacks
      | .error defect => .fail defect) := by
  unfold reduce? Machine.reduce
  cases m.grammar.rule? rule with
  | none => rfl
  | some production =>
    by_cases short : c.stack.length < production.rhs.length
    · simp [Configuration.stacks, short]
    · have enough := Nat.le_of_not_lt short
      have states : below? production.rhs.length (statesOf c.stack) =
          some (statesOf (c.stack.drop production.rhs.length)) := by
        rw [below?_of_le (by rw [length_statesOf]; omega), drop_statesOf enough]
      have symbols : below? production.rhs.length (c.stack.map (·.symbol)) =
          some ((c.stack.drop production.rhs.length).map (·.symbol)) := by
        rw [below?_of_le (by simpa using enough), List.map_drop]
      simp only [Configuration.stacks, List.length_map, if_neg short, states, symbols,
        head?_statesOf, Option.bind_eq_bind, Option.bind_some]
      cases m.table.action (topState (c.stack.drop production.rhs.length)) production.lhs <;> rfl

theorem unwind?_frames (t : ActionTable) (symbol : Symbol) (stack : List Frame) :
    unwind? t symbol (statesOf stack) (stack.map (·.symbol)) =
      some ((Machine.unwind t symbol stack).map fun below =>
        (statesOf below, below.map (·.symbol))) := by
  induction stack with
  | nil => rfl
  | cons frame below ih =>
    have states : below? 1 (statesOf (frame :: below)) = some (statesOf below) := rfl
    simp only [List.map_cons, unwind?, Machine.unwind, states, head?_statesOf,
      Option.bind_eq_bind, Option.bind_some]
    split
    · exact ih
    · rfl

/-- A step on frames taken apart is the step on the frames. -/
theorem step?_stacks (c : Configuration) : c.stacks.step? m = some (m.step c).onStacks := by
  unfold step? Machine.step
  rw [action?_stacks]
  cases acts : m.action c with
  | accept => rfl
  | shift state => rfl
  | goto state => rfl
  | reduce rule =>
    refine (reduce?_stacks c rule).trans ?_
    dsimp only
    cases m.reduce c rule <;> rfl
  | error =>
    have unwound : unwind? m.table c.stacks.current c.stacks.states c.stacks.symbols = _ :=
      unwind?_frames m.table c.current c.stack
    simp only [Option.bind_eq_bind, Option.bind_some, unwound, Machine.recover]
    cases Machine.unwind m.table c.current c.stack <;> rfl

/-- There is one state more than there are symbols, and state 0 is at the bottom. -/
structure Paired (s : Stacks) : Prop where
  length : s.states.length = s.symbols.length + 1
  bottom : s.states.getLast? = some 0

theorem paired_stacks (c : Configuration) : c.stacks.Paired where
  length := by simp [Configuration.stacks, length_statesOf]
  bottom := by simp [Configuration.stacks, statesOf]

/-- With enough symbols for a right-hand side, paired stacks have a state below it, and the goto of
that state decides. -/
private theorem reduce?_of_enough {s : Stacks} (paired : s.Paired) {rule : Nat}
    {production : Production} (named : m.grammar.rule? rule = some production)
    (enough : production.rhs.length ≤ s.symbols.length) :
    ∃ state, s.states[production.rhs.length]? = some state ∧
      s.reduce? m rule = match m.table.action state production.lhs with
        | .goto target => some (.next ⟨target :: s.states.drop production.rhs.length,
            production.lhs :: s.symbols.drop production.rhs.length, s.input⟩)
        | _ => some (.fail (.missingGoto state production.lhs)) := by
  have inside : production.rhs.length < s.states.length := by
    rw [paired.length]
    omega
  have uncovered := List.getElem?_eq_getElem inside
  have top : (s.states.drop production.rhs.length).head? = some s.states[production.rhs.length] := by
    rw [List.head?_drop, uncovered]
  have states := below?_of_le (Nat.le_of_lt inside)
  have symbols := below?_of_le enough
  refine ⟨_, uncovered, ?_⟩
  cases acts : m.table.action s.states[production.rhs.length] production.lhs <;>
    simp only [reduce?, named, if_neg (Nat.not_lt.mpr enough), states, symbols, top, acts,
      Option.bind_eq_bind, Option.bind_some]

/-- A defect that a reduction of paired stacks comes upon is what it fails with. -/
theorem Finds.reduce? {s : Stacks} (paired : s.Paired) {rule : Nat} {defect : Defect}
    (found : s.Finds m rule defect) : s.reduce? m rule = some (.fail defect) := by
  cases found with
  | unknownRule unknown => simp only [Stacks.reduce?, unknown]
  | stackUnderflow named short => simp only [Stacks.reduce?, named, if_pos short]
  | missingGoto named enough uncovered without =>
    obtain ⟨state, uncovered', reduces⟩ := reduce?_of_enough paired named enough
    obtain rfl := Option.some.inj (uncovered.symm.trans uncovered')
    rw [reduces]
    split
    · exact absurd ‹_› (without _)
    · rfl

/-- Of paired stacks, a reduction comes upon a defect or is carried out. -/
theorem finds_or_reduces {s : Stacks} (paired : s.Paired) (rule : Nat) :
    (∃ defect, s.Finds m rule defect) ∨
      ∃ s', s.reduce? m rule = some (.next s') ∧ s.Reduces m rule s' := by
  cases named : m.grammar.rule? rule with
  | none => exact .inl ⟨_, .unknownRule named⟩
  | some production =>
    by_cases short : s.symbols.length < production.rhs.length
    · exact .inl ⟨_, .stackUnderflow named short⟩
    · have enough := Nat.le_of_not_lt short
      obtain ⟨state, uncovered, reduces⟩ := reduce?_of_enough paired named enough
      cases acts : m.table.action state production.lhs with
      | goto target =>
        rw [acts] at reduces
        exact .inr ⟨_, reduces, .goto named enough uncovered acts⟩
      | _ => exact .inl ⟨_, .missingGoto named enough uncovered (by simp [acts])⟩

theorem step?_of_reduce {s : Stacks} {rule : Nat} (acts : s.action? m = some (.reduce rule)) :
    s.step? m = s.reduce? m rule := by
  simp [step?, acts]

/-- Nothing but a reduction fails. -/
private theorem action?_of_fail {s : Stacks} {defect : Defect}
    (fails : s.step? m = some (.fail defect)) : ∃ rule, s.action? m = some (.reduce rule) := by
  cases acts : s.action? m with
  | none => simp [step?, acts] at fails
  | some action =>
    cases action with
    | reduce rule => exact ⟨rule, rfl⟩
    | accept => simp [step?, acts] at fails
    | shift state => simp [step?, acts] at fails
    | goto state => simp [step?, acts] at fails
    | error =>
      simp only [step?, acts, Option.bind_eq_bind, Option.bind_some] at fails
      obtain ⟨unwound, _, ended⟩ := Option.bind_eq_some_iff.mp fails
      split at ended <;> cases ended

/-- Of paired stacks, a step fails exactly where a reduction comes upon a defect. -/
theorem step?_eq_fail_iff {s : Stacks} (paired : s.Paired) {defect : Defect} :
    s.step? m = some (.fail defect) ↔
      ∃ rule, s.action? m = some (.reduce rule) ∧ s.Finds m rule defect := by
  constructor
  · intro fails
    obtain ⟨rule, acts⟩ := action?_of_fail fails
    rw [step?_of_reduce acts] at fails
    rcases finds_or_reduces paired rule with ⟨other, found⟩ | ⟨s', carried, _⟩
    · cases (found.reduce? paired).symm.trans fails
      exact ⟨rule, acts, found⟩
    · cases carried.symm.trans fails
  · rintro ⟨rule, acts, found⟩
    rw [step?_of_reduce acts, found.reduce? paired]

end Stacks

namespace Machine

/-- What is reached on two stacks is what is reached on frames. -/
theorem reachesStacks_iff {n : Nat} {s : Stacks} :
    m.ReachesStacks input n s ↔ ∃ c, m.Reaches input n c ∧ s = c.stacks := by
  constructor
  · intro reaches
    induction reaches with
    | start => exact ⟨initial input, .start, rfl⟩
    | next _ step ih =>
      obtain ⟨c, before, rfl⟩ := ih
      rw [Stacks.step?_stacks] at step
      cases next : m.step c with
      | next d =>
        rw [next] at step
        cases step
        exact ⟨d, before.next next, rfl⟩
      | halt verdict => rw [next] at step; cases step
      | fail defect => rw [next] at step; cases step
  · rintro ⟨c, reaches, rfl⟩
    induction reaches with
    | start => exact .start
    | next _ step ih => exact ih.next (by rw [Stacks.step?_stacks, step]; rfl)

/-- However many steps are taken, the stacks stay paired. -/
theorem ReachesStacks.paired {n : Nat} {s : Stacks} (reaches : m.ReachesStacks input n s) :
    s.Paired := by
  obtain ⟨c, _, rfl⟩ := reachesStacks_iff.mp reaches
  exact Stacks.paired_stacks c

/-- A run fails exactly if it comes to stacks whose step fails. -/
theorem exists_run_error_iff {defect : Defect} :
    (∃ limit, m.run limit input = some (.error defect)) ↔
      ∃ n s, m.ReachesStacks input n s ∧ s.step? m = some (.fail defect) := by
  constructor
  · rintro ⟨limit, ended⟩
    obtain ⟨n, c, reaches, failed⟩ := reaches_of_run_error ended
    refine ⟨n, _, reachesStacks_iff.mpr ⟨c, reaches, rfl⟩, ?_⟩
    rw [Stacks.step?_stacks, failed]
    rfl
  · rintro ⟨n, s, reached, step⟩
    obtain ⟨c, reaches, rfl⟩ := reachesStacks_iff.mp reached
    rw [Stacks.step?_stacks] at step
    cases failed : m.step c with
    | next d => rw [failed] at step; cases step
    | halt verdict => rw [failed] at step; cases step
    | fail other =>
      rw [failed] at step
      cases step
      exact ⟨n + 1, run_of_fail reaches failed⟩

/-- On any input the two stacks stay paired. So every step has an outcome, which is a failure exactly
where a reduction comes upon a defect; a reduction that comes upon none is carried out. These are the
steps of the run on frames, and the run fails with the defect that a reduction on its way comes
upon. -/
theorem stacks_spec (m : Machine) (input : List Symbol) :
    (∀ n s, m.ReachesStacks input n s →
      (s.states.length = s.symbols.length + 1 ∧ s.states.getLast? = some 0) ∧
      (∃ outcome, s.step? m = some outcome) ∧
      (∀ defect, s.step? m = some (.fail defect) ↔
        ∃ rule, s.action? m = some (.reduce rule) ∧ s.Finds m rule defect) ∧
      ∀ rule, s.action? m = some (.reduce rule) → (∀ defect, ¬ s.Finds m rule defect) →
        ∃ s', s.step? m = some (.next s') ∧ s.Reduces m rule s') ∧
    (∀ n s, m.ReachesStacks input n s ↔ ∃ c, m.Reaches input n c ∧ s = c.stacks) ∧
    (∀ c, c.stacks.step? m = some (m.step c).onStacks) ∧
    ∀ defect, (∃ limit, m.run limit input = some (.error defect)) ↔
      ∃ n s rule, m.ReachesStacks input n s ∧ s.action? m = some (.reduce rule) ∧
        s.Finds m rule defect := by
  have failing : ∀ n s, m.ReachesStacks input n s → ∀ defect,
      s.step? m = some (.fail defect) ↔
        ∃ rule, s.action? m = some (.reduce rule) ∧ s.Finds m rule defect :=
    fun n s reaches defect => Stacks.step?_eq_fail_iff reaches.paired
  refine ⟨fun n s reaches => ?_, fun n s => reachesStacks_iff, Stacks.step?_stacks,
    fun defect => ?_⟩
  · have paired := reaches.paired
    obtain ⟨c, _, rfl⟩ := reachesStacks_iff.mp reaches
    refine ⟨⟨paired.length, paired.bottom⟩, ⟨_, Stacks.step?_stacks c⟩, failing n _ reaches,
      fun rule acts sound => ?_⟩
    rw [Stacks.step?_of_reduce acts]
    exact (Stacks.finds_or_reduces paired rule).resolve_left fun ⟨defect, found⟩ =>
      sound defect found
  · rw [exists_run_error_iff]
    constructor
    · rintro ⟨n, s, reaches, failed⟩
      obtain ⟨rule, found⟩ := (failing n s reaches defect).mp failed
      exact ⟨n, s, rule, reaches, found⟩
    · rintro ⟨n, s, rule, reaches, found⟩
      exact ⟨n, s, reaches, (failing n s reaches defect).mpr ⟨rule, found⟩⟩

/-- With the table of `E -> E + n | n` and the rules of `A -> a b | c`, of which only the numbers have
been computed, the run on `n` fails in the reduction by `A -> c`. -/
theorem stacks_spec_foreign :
    let sums := (Grammar.ofStart (.nonTerminal "E")).pushAll (.nonTerminal "E")
      [[.nonTerminal "E", .terminal "+", .terminal "n"], [.terminal "n"]]
    let foreign := (Grammar.ofStart (.nonTerminal "A")).pushAll (.nonTerminal "A")
      [[.terminal "a", .terminal "b"], [.terminal "c"]]
    let s : Stacks := ⟨[2, 0], [.terminal "n"], [.endMark]⟩
    ∃ p m, Parser.ofGrammar sums = .ok p ∧ m = ⟨foreign.numberRules, p.table⟩ ∧
      m.ReachesStacks [.terminal "n"] 1 s ∧
      (∃ rule, s.action? m = some (.reduce rule) ∧
        s.Finds m rule (.missingGoto 0 (.nonTerminal "A"))) ∧
      ∃ limit, m.run limit [.terminal "n"] =
        some (.error (.missingGoto 0 (.nonTerminal "A"))) := by
  intro sums foreign s
  have computed : ((Parser.ofGrammar sums).toOption.any fun p : Parser =>
      decide ((Stacks.initial [.terminal "n"]).step? ⟨foreign.numberRules, p.table⟩ =
          some (.next s) ∧
        s.step? ⟨foreign.numberRules, p.table⟩ =
          some (.fail (.missingGoto 0 (.nonTerminal "A"))))) = true := by decide +kernel
  cases built : Parser.ofGrammar sums with
  | error e =>
    rw [built] at computed
    cases computed
  | ok p =>
    rw [built] at computed
    obtain ⟨next, fails⟩ := of_decide_eq_true computed
    obtain ⟨reached, _, _, failures⟩ := stacks_spec ⟨foreign.numberRules, p.table⟩ [.terminal "n"]
    have reaches := ReachesStacks.start.next next
    obtain ⟨rule, acts, found⟩ := ((reached 1 s reaches).2.2.1 _).mp fails
    exact ⟨p, _, rfl, rfl, reaches, ⟨rule, acts, found⟩,
      (failures _).mpr ⟨1, s, rule, reaches, acts, found⟩⟩

end Machine

end CanonicalLR
