import CanonicalLR.Grammar.Text
import CanonicalLR.Proofs.Calculator.Trees
import CanonicalLR.Proofs.Grammar.Expansion
import CanonicalLR.Proofs.Token.Spacing

/-!
The calculator's grammar generates the expressions. A tree's productions expand the start symbol to
what the tree spells (`Sum.expands`). The other way round, the symbols of the grammar stand for
expressions, terms and factors: each production makes one of them out of others, so that what the
start symbol expands to is spelled like an expression (`isExpression_of_expands`).
-/

set_option autoImplicit false
set_option relaxedAutoImplicit false

namespace CanonicalLR.Calculator

/-- The calculator's grammar as it is read. -/
def grammar : Grammar :=
  (((Grammar.ofStart (.nonTerminal "E")).pushAll (.nonTerminal "E")
    [[.nonTerminal "E", .terminal "+", .nonTerminal "T"],
      [.nonTerminal "E", .terminal "-", .nonTerminal "T"], [.nonTerminal "T"]]).pushAll
    (.nonTerminal "T") [[.nonTerminal "T", .terminal "*", .nonTerminal "F"],
      [.nonTerminal "T", .terminal "/", .nonTerminal "F"], [.nonTerminal "F"]]).pushAll
    (.nonTerminal "F") [[.terminal "(", .nonTerminal "E", .terminal ")"], [.terminal "n"]]

theorem read_grammarText : Grammar.read grammarText = .ok grammar := by decide +kernel

theorem leftHandSidesNonTerminal : grammar.LeftHandSidesNonTerminal := by decide +kernel

theorem oneKindPerName : grammar.OneKindPerName := by decide +kernel

theorem avoidsEndMark : grammar.AvoidsEndMark := by decide +kernel

theorem inputOf_append (left right : List Token) :
    inputOf (left ++ right) = inputOf left ++ inputOf right := List.filterMap_append

theorem inputOf_punctuator (c : Char) (tokens : List Token) :
    inputOf (.punctuator c :: tokens) = .terminal (String.singleton c) :: inputOf tokens := rfl

section Expansions

private theorem expands_production {production : Production} (mem : production ∈ grammar.productions)
    {productions : List Production} {w : List Symbol}
    (body : grammar.Expands productions production.rhs w) :
    grammar.Expands (productions ++ [production]) [production.lhs] w := by
  simpa using Grammar.Expands.nonTerminal mem body .nil

private theorem Additive.production_eq (operator : Additive) :
    production "E" ["E", String.singleton operator.character, "T"] = ⟨.nonTerminal "E",
      [.nonTerminal "E", .terminal (String.singleton operator.character), .nonTerminal "T"]⟩ := by
  cases operator <;> decide

private theorem Multiplicative.production_eq (operator : Multiplicative) :
    production "T" ["T", String.singleton operator.character, "F"] = ⟨.nonTerminal "T",
      [.nonTerminal "T", .terminal (String.singleton operator.character), .nonTerminal "F"]⟩ := by
  cases operator <;> decide

mutual

/-- The start symbol expands to what a tree spells, by the productions of the tree. -/
theorem Sum.expands : (sum : Sum) →
    grammar.Expands sum.productions [.nonTerminal "E"] (inputOf sum.tokens)
  | .ofProduct product => by
    have mem : ⟨.nonTerminal "E", [.nonTerminal "T"]⟩ ∈ grammar.productions := by decide +kernel
    exact expands_production mem product.expands
  | .join left operator right => by
    have body : grammar.Expands (left.productions ++ right.productions)
        [.nonTerminal "E", .terminal (String.singleton operator.character), .nonTerminal "T"]
        (inputOf left.tokens ++ .terminal (String.singleton operator.character) ::
          inputOf right.tokens) := left.expands.append (.terminal rfl right.expands)
    rw [Sum.tokens, Sum.productions, inputOf_append, inputOf_punctuator, operator.production_eq]
    exact expands_production (by cases operator <;> decide +kernel) body

theorem Product.expands : (product : Product) →
    grammar.Expands product.productions [.nonTerminal "T"] (inputOf product.tokens)
  | .ofFactor factor => by
    have mem : ⟨.nonTerminal "T", [.nonTerminal "F"]⟩ ∈ grammar.productions := by decide +kernel
    exact expands_production mem factor.expands
  | .join left operator right => by
    have body : grammar.Expands (left.productions ++ right.productions)
        [.nonTerminal "T", .terminal (String.singleton operator.character), .nonTerminal "F"]
        (inputOf left.tokens ++ .terminal (String.singleton operator.character) ::
          inputOf right.tokens) := left.expands.append (.terminal rfl right.expands)
    rw [Product.tokens, Product.productions, inputOf_append, inputOf_punctuator,
      operator.production_eq]
    exact expands_production (by cases operator <;> decide +kernel) body

theorem Factor.expands : (factor : Factor) →
    grammar.Expands factor.productions [.nonTerminal "F"] (inputOf factor.tokens)
  | .integer digits => by
    have mem : ⟨.nonTerminal "F", [.terminal "n"]⟩ ∈ grammar.productions := by decide +kernel
    exact expands_production mem (.terminal rfl .nil)
  | .group sum => by
    have mem : ⟨.nonTerminal "F", [.terminal "(", .nonTerminal "E", .terminal ")"]⟩ ∈
        grammar.productions := by decide +kernel
    have body : grammar.Expands (sum.productions ++ [])
        [.terminal "(", .nonTerminal "E", .terminal ")"]
        (.terminal "(" :: (inputOf sum.tokens ++ [.terminal ")"])) :=
      .terminal rfl (sum.expands.append (.terminal rfl .nil))
    rw [List.append_nil] at body
    rw [Factor.tokens, Factor.productions, List.cons_append, inputOf_punctuator, inputOf_append]
    exact expands_production mem body

end

end Expansions

section Interpretation

/-- What the symbols of the grammar stand for: expressions, terms and factors, and tokens that are the
symbol's. -/
private def Spells (s : Symbol) (tokens : List Token) : Prop :=
  if s = .nonTerminal "E" then IsExpression tokens
  else if s = .nonTerminal "T" then IsTerm tokens
  else if s = .nonTerminal "F" then IsFactor tokens
  else ∃ token, tokens = [token] ∧ token.IsEffective ∧ terminalOf token = some s

/-- What a string of symbols stands for, one after the other. -/
private def SpellsAll : List Symbol → List Token → Prop
  | [], tokens => tokens = []
  | s :: string, tokens =>
    ∃ front back, tokens = front ++ back ∧ Spells s front ∧ SpellsAll string back

private theorem spellsAll_singleton {s : Symbol} {tokens : List Token} :
    SpellsAll [s] tokens ↔ Spells s tokens := by
  constructor
  · rintro ⟨front, _, rfl, spells, rfl⟩
    rwa [List.append_nil]
  · exact fun spells => ⟨tokens, [], (List.append_nil _).symm, spells, rfl⟩

private theorem spells_expression {tokens : List Token} :
    Spells (.nonTerminal "E") tokens ↔ IsExpression tokens := by
  simp [Spells]

private theorem spells_term {tokens : List Token} :
    Spells (.nonTerminal "T") tokens ↔ IsTerm tokens := by
  simp [Spells, Symbol.nonTerminal]

private theorem spells_factor {tokens : List Token} :
    Spells (.nonTerminal "F") tokens ↔ IsFactor tokens := by
  simp [Spells, Symbol.nonTerminal]

private theorem spells_terminal {s : Symbol} (kind : s.isTerminal = true) {tokens : List Token} :
    Spells s tokens ↔ ∃ token, tokens = [token] ∧ token.IsEffective ∧ terminalOf token = some s := by
  have other : ∀ name, s ≠ .nonTerminal name := by
    rintro name rfl
    cases kind
  simp only [Spells, other, if_false]

private theorem spells_punctuator {c : Char} (mem : c ∈ Token.punctuators) {tokens : List Token}
    (h : Spells (.terminal (String.singleton c)) tokens) : tokens = [.punctuator c] := by
  obtain ⟨token, rfl, ⟨digits, rfl⟩ | ⟨d, -, rfl⟩, same⟩ := (spells_terminal rfl).mp h
  · have name : String.singleton 'n' = String.singleton c :=
      congrArg Symbol.name (Option.some.inj same)
    rw [← String.singleton_inj.mp name] at mem
    exact absurd mem (by decide)
  · have name : String.singleton d = String.singleton c :=
      congrArg Symbol.name (Option.some.inj same)
    rw [String.singleton_inj.mp name]

private theorem spells_integer {tokens : List Token} (h : Spells (.terminal "n") tokens) :
    ∃ digits, tokens = [.integer digits] := by
  obtain ⟨token, rfl, ⟨digits, rfl⟩ | ⟨d, mem, rfl⟩, same⟩ := (spells_terminal rfl).mp h
  · exact ⟨digits, rfl⟩
  · have name : String.singleton d = String.singleton 'n' :=
      congrArg Symbol.name (Option.some.inj same)
    rw [String.singleton_inj.mp name] at mem
    exact absurd mem (by decide)

/-- A string with a punctuator in the middle stands for what its ends stand for, with the punctuator
between them. -/
private theorem spellsAll_operator {left right : Symbol} {c : Char} (mem : c ∈ Token.punctuators)
    {tokens : List Token} (h : SpellsAll [left, .terminal (String.singleton c), right] tokens) :
    ∃ front back, tokens = front ++ .punctuator c :: back ∧ Spells left front ∧
      Spells right back := by
  obtain ⟨front, _, rfl, first, middle, back, rfl, second, third⟩ := h
  obtain rfl := spells_punctuator mem second
  exact ⟨front, back, rfl, first, spellsAll_singleton.mp third⟩

private theorem productions_eq : grammar.productions.toList =
    [⟨.nonTerminal "E", [.nonTerminal "E", .terminal "+", .nonTerminal "T"]⟩,
      ⟨.nonTerminal "E", [.nonTerminal "E", .terminal "-", .nonTerminal "T"]⟩,
      ⟨.nonTerminal "E", [.nonTerminal "T"]⟩,
      ⟨.nonTerminal "F", [.terminal "(", .nonTerminal "E", .terminal ")"]⟩,
      ⟨.nonTerminal "F", [.terminal "n"]⟩, ⟨.nonTerminal "T", [.nonTerminal "F"]⟩,
      ⟨.nonTerminal "T", [.nonTerminal "T", .terminal "*", .nonTerminal "F"]⟩,
      ⟨.nonTerminal "T", [.nonTerminal "T", .terminal "/", .nonTerminal "F"]⟩] := by
  decide +kernel

private theorem isExpression_of_operator {c : Char} (mem : c ∈ ['+', '-']) {tokens : List Token}
    (h : SpellsAll [.nonTerminal "E", .terminal (String.singleton c), .nonTerminal "T"] tokens) :
    IsExpression tokens := by
  have known : ['+', '-'] ⊆ Token.punctuators := by decide
  obtain ⟨front, back, rfl, left, right⟩ := spellsAll_operator (known mem) h
  exact (spells_expression.mp left).snoc mem (spells_term.mp right)

private theorem isTerm_of_operator {c : Char} (mem : c ∈ ['*', '/']) {tokens : List Token}
    (h : SpellsAll [.nonTerminal "T", .terminal (String.singleton c), .nonTerminal "F"] tokens) :
    IsTerm tokens := by
  have known : ['*', '/'] ⊆ Token.punctuators := by decide
  obtain ⟨front, back, rfl, left, right⟩ := spellsAll_operator (known mem) h
  exact (spells_term.mp left).snoc mem (spells_factor.mp right)

private theorem isFactor_of_group {tokens : List Token}
    (h : SpellsAll [.terminal "(", .nonTerminal "E", .terminal ")"] tokens) : IsFactor tokens := by
  obtain ⟨_, _, rfl, first, inside, _, rfl, second, third⟩ := h
  obtain rfl := spells_punctuator (by decide : '(' ∈ Token.punctuators) first
  obtain rfl := spells_punctuator (by decide : ')' ∈ Token.punctuators)
    (spellsAll_singleton.mp third)
  exact .group (spells_expression.mp second)

/-- What the right-hand side of a production stands for, its left-hand side stands for. -/
private theorem spells_lhs {production : Production} (mem : production ∈ grammar.productions)
    {tokens : List Token} (h : SpellsAll production.rhs tokens) : Spells production.lhs tokens := by
  rw [OrderedSet.mem_def, productions_eq] at mem
  simp only [List.mem_cons, List.not_mem_nil, or_false] at mem
  rcases mem with rfl | rfl | rfl | rfl | rfl | rfl | rfl | rfl
  · exact spells_expression.mpr (isExpression_of_operator (by decide : '+' ∈ ['+', '-']) h)
  · exact spells_expression.mpr (isExpression_of_operator (by decide : '-' ∈ ['+', '-']) h)
  · exact spells_expression.mpr (.single (spells_term.mp (spellsAll_singleton.mp h)))
  · exact spells_factor.mpr (isFactor_of_group h)
  · obtain ⟨digits, rfl⟩ := spells_integer (spellsAll_singleton.mp h)
    exact spells_factor.mpr (.integer digits)
  · exact spells_term.mpr (.single (spells_factor.mp (spellsAll_singleton.mp h)))
  · exact spells_term.mpr (isTerm_of_operator (by decide : '*' ∈ ['*', '/']) h)
  · exact spells_term.mpr (isTerm_of_operator (by decide : '/' ∈ ['*', '/']) h)

/-- Effective tokens whose terminals a string expands to are what the string stands for. -/
private theorem spellsAll_of_expands {productions : List Production} {u v : List Symbol}
    (h : grammar.Expands productions u v) {tokens : List Token}
    (effective : ∀ token ∈ tokens, token.IsEffective) (read : inputOf tokens = v) :
    SpellsAll u tokens := by
  have visible : ∀ token : Token, token.IsEffective → terminalOf token ≠ none := by
    rintro token (⟨digits, rfl⟩ | ⟨c, _, rfl⟩) <;> nofun
  induction h generalizing tokens with
  | nil =>
    have nothing := List.filterMap_eq_nil_iff.mp read
    refine List.eq_nil_iff_forall_not_mem.mpr fun token mem => ?_
    exact visible token (effective token mem) (nothing token mem)
  | @terminal s productions u v kind _ ih =>
    cases tokens with
    | nil => cases read
    | cons token tokens =>
      obtain ⟨first, later⟩ := List.forall_mem_cons.mp effective
      cases shown : terminalOf token with
      | none => exact absurd shown (visible token first)
      | some t =>
        rw [inputOf, List.filterMap_cons_some shown] at read
        obtain ⟨rfl, rest⟩ := List.cons_eq_cons.mp read
        exact ⟨[token], tokens, rfl, (spells_terminal kind).mpr ⟨token, rfl, first, shown⟩,
          ih later rest⟩
  | nonTerminal mem _ _ ihBody ihRest =>
    obtain ⟨front, back, rfl, left, right⟩ := List.filterMap_eq_append_iff.mp read
    simp only [List.forall_mem_append] at effective
    exact ⟨front, back, rfl, spells_lhs mem (ihBody effective.1 left), ihRest effective.2 right⟩

theorem isExpression_of_expands {productions : List Production} {tokens : List Token}
    (effective : ∀ token ∈ tokens, token.IsEffective)
    (h : grammar.Expands productions [.nonTerminal "E"] (inputOf tokens)) : IsExpression tokens :=
  spells_expression.mp (spellsAll_singleton.mp (spellsAll_of_expands h effective rfl))

end Interpretation

theorem productive : grammar.Productive := by
  have only : ∀ a ∈ grammar.symbols, a.isNonTerminal = true →
      a = .nonTerminal "E" ∨ a = .nonTerminal "F" ∨ a = .nonTerminal "T" := by decide +kernel
  let factor : Factor := .integer ""
  intro a mem kind
  rcases only a mem kind with rfl | rfl | rfl
  · have expands := (Sum.ofProduct (.ofFactor factor)).expands
    exact ⟨_, expands.isTerminal, expands.derives⟩
  · exact ⟨_, factor.expands.isTerminal, factor.expands.derives⟩
  · have expands := (Product.ofFactor factor).expands
    exact ⟨_, expands.isTerminal, expands.derives⟩

end CanonicalLR.Calculator
