import CanonicalLR.Proofs.Calculator.Grammar
import CanonicalLR.Proofs.Grammar.Openings
import CanonicalLR.Proofs.Parser.Termination

/-!
The calculator decides arithmetic. Its automaton has no conflicts and all non-terminals of its grammar
derive terminal strings, so that every run ends, is sound and is complete; what its grammar generates
are the expressions.
-/

set_option autoImplicit false
set_option relaxedAutoImplicit false

namespace CanonicalLR.Calculator

/-- What a line is read as are terminals, and not the end mark. -/
private theorem visible_of_mem_inputOf {tokens : List Token}
    (effective : ∀ token ∈ tokens, token.IsEffective) {s : Symbol} (h : s ∈ inputOf tokens) :
    s.isTerminal = true ∧ s.isEndMark = false := by
  obtain ⟨token, mem, shown⟩ := List.mem_filterMap.mp h
  rcases effective token mem with ⟨digits, rfl⟩ | ⟨c, known, rfl⟩
  · cases shown
    decide
  · cases shown
    refine ⟨rfl, beq_eq_false_iff_ne.mpr fun name : String.singleton c = String.singleton '$' => ?_⟩
    rw [String.singleton_inj.mp name] at known
    exact absurd known (by decide)

/-- The whole of an input made of tokens is its content. -/
private theorem content_inputOf {tokens : List Token}
    (effective : ∀ token ∈ tokens, token.IsEffective) :
    Machine.content (inputOf tokens) = inputOf tokens := by
  have ends : Machine.content [] = [] := rfl
  have content := Machine.content_append
    (fun s mem => (visible_of_mem_inputOf effective mem).2) ends
  rwa [List.append_nil] at content

section Built

variable {p : Parser} (built : Parser.ofGrammar grammar = .ok p)
include built

private theorem canonical : p.Canonical grammar :=
  Parser.canonical_of_ofGrammar leftHandSidesNonTerminal oneKindPerName built

theorem conflictFree : p.automaton.ConflictFree := by
  have computed := Parser.of_any_ofGrammar (f := fun p => decide p.automaton.ConflictFree) built
    (by decide +kernel)
  simpa using computed

/-- The parser comes to a verdict on every input. -/
theorem exists_trace (input : List Symbol) :
    ∃ limit trace, p.parse limit input = some (.ok trace) :=
  (canonical built).exists_trace avoidsEndMark (conflictFree built)
    ((canonical built).productive productive) input

/-- What a tree spells is accepted without an error, by the productions of the tree. -/
theorem reductions_of_tree (sum : Sum) {limit : Nat} {trace : Trace}
    (parsed : p.parse limit (inputOf sum.tokens) = some (.ok trace)) :
    trace.isAccepted = true ∧ trace.hadError = false ∧
      (p.machine.reductions trace.rows).map (·.1) = sum.productions := by
  obtain ⟨limit', trace', parsed', ended⟩ :=
    (canonical built).exists_run_of_expands avoidsEndMark (conflictFree built) sum.expands
  cases Machine.run_unique parsed parsed'
  exact ended

/-- What is accepted without an error is an expression. -/
theorem isExpression_of_isAccepted {tokens : List Token}
    (effective : ∀ token ∈ tokens, token.IsEffective) {limit : Nat} {trace : Trace}
    (parsed : p.parse limit (inputOf tokens) = some (.ok trace)) (accepted : trace.isAccepted = true)
    (clean : trace.hadError = false) : IsExpression tokens := by
  have whole := content_inputOf effective
  have terminals : ∀ s ∈ Machine.content (inputOf tokens), s.isTerminal = true := by
    rw [whole]
    exact fun s mem => (visible_of_mem_inputOf effective mem).1
  have rewrites :=
    (canonical built).rewritesAt_of_run avoidsEndMark parsed accepted clean terminals
  have expands := rewrites.rightmostDerives.expands leftHandSidesNonTerminal terminals
  rw [whole] at expands
  exact isExpression_of_expands effective expands

end Built

/-- The calculator decides arithmetic. Its grammar can be read and has a parser, which comes to a
verdict on every line that can be read as tokens. It accepts without an error exactly the expressions,
and then reduces by the productions of the tree that groups operators to the left and binds factors
more tightly than terms. -/
theorem parse_iff_isExpression : ∃ g p, Grammar.read grammarText = .ok g ∧
    Parser.ofGrammar g = .ok p ∧ ∀ line tokens, Token.ofLine line = .ok tokens →
      ∃ limit trace, p.parse limit (inputOf tokens) = some (.ok trace) ∧
        (trace.verdict = .accepted ∧ trace.hadError = false ↔ IsExpression tokens) ∧
        (IsExpression tokens → (∃ sum : Sum, sum.tokens = tokens) ∧
          ∀ sum : Sum, sum.tokens = tokens →
            (p.machine.reductions trace.rows).map (·.1) = sum.productions) ∧
        (¬ IsExpression tokens →
          trace.verdict = .rejected ∨ trace.verdict = .accepted ∧ trace.hadError = true) := by
  obtain ⟨p, built⟩ := Parser.exists_ofGrammar (g := grammar) (by decide)
  refine ⟨grammar, p, read_grammarText, built, fun line tokens lexed => ?_⟩
  have effective := Token.isEffective_of_ofLine lexed
  obtain ⟨limit, trace, parsed⟩ := exists_trace built (inputOf tokens)
  have accepts : trace.isAccepted = true ↔ trace.verdict = .accepted := by
    simp [Trace.isAccepted]
  have decides : trace.verdict = .accepted ∧ trace.hadError = false ↔ IsExpression tokens := by
    constructor
    · rintro ⟨accepted, clean⟩
      exact isExpression_of_isAccepted built effective parsed (accepts.mpr accepted) clean
    · intro expression
      obtain ⟨sum, rfl⟩ := isExpression_iff.mp expression
      obtain ⟨accepted, clean, _⟩ := reductions_of_tree built sum parsed
      exact ⟨accepts.mp accepted, clean⟩
  refine ⟨limit, trace, parsed, decides, fun expression => ⟨isExpression_iff.mp expression, ?_⟩,
    fun other => ?_⟩
  · rintro sum rfl
    exact (reductions_of_tree built sum parsed).2.2
  · cases verdict : trace.verdict with
    | rejected => exact .inl rfl
    | accepted =>
      refine .inr ⟨rfl, ?_⟩
      by_contra clean
      exact other (decides.mp ⟨verdict, by simpa using clean⟩)

/-- In `(1 + 2) * 3` the sum is one factor. -/
theorem parse_group : ∃ g p limit trace, Grammar.read grammarText = .ok g ∧
    Parser.ofGrammar g = .ok p ∧
    Token.ofLine "(1 + 2) * 3" = .ok [.punctuator '(', .integer "1", .punctuator '+', .integer "2",
      .punctuator ')', .punctuator '*', .integer "3"] ∧
    p.parse limit [.terminal "(", .terminal "n", .terminal "+", .terminal "n", .terminal ")",
      .terminal "*", .terminal "n"] = some (.ok trace) ∧ trace.verdict = .accepted ∧
    trace.hadError = false ∧ (p.machine.reductions trace.rows).map (·.1) =
      [production "F" ["n"], production "T" ["F"], production "E" ["T"], production "F" ["n"],
        production "T" ["F"], production "E" ["E", "+", "T"], production "F" ["(", "E", ")"],
        production "T" ["F"], production "F" ["n"], production "T" ["T", "*", "F"],
        production "E" ["T"]] := by
  have lexed : Token.ofLine "(1 + 2) * 3" = .ok [.punctuator '(', .integer "1", .punctuator '+',
      .integer "2", .punctuator ')', .punctuator '*', .integer "3"] := by decide +kernel
  let sum : Sum := .join (.ofProduct (.ofFactor (.integer "1"))) .plus (.ofFactor (.integer "2"))
  let whole : Sum := .ofProduct (.join (.ofFactor (.group sum)) .times (.integer "3"))
  obtain ⟨g, p, read, built, lines⟩ := parse_iff_isExpression
  obtain ⟨limit, trace, parsed, decides, trees, _⟩ := lines _ _ lexed
  have expression := isExpression_iff.mpr ⟨whole, rfl⟩
  obtain ⟨accepted, clean⟩ := decides.mpr expression
  exact ⟨g, p, limit, trace, read, built, lexed, parsed, accepted, clean,
    (trees expression).2 whole rfl⟩

end CanonicalLR.Calculator
