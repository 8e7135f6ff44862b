import CanonicalLR.Grammar.Text
import CanonicalLR.Token

/-!
Arithmetic lines as inputs of a parser. All integers are the terminal `n`; a punctuator is the
terminal of its own name.

An expression is terms joined by `+` or `-`, a term is factors joined by `*` or `/`, a factor is an
integer or an expression in parentheses. As strings of tokens, nothing is said of how the parts of an
expression are grouped; as trees they group to the left, and with each tree go the tokens that spell it
and the productions that build it, operands first.
-/

set_option autoImplicit false
set_option relaxedAutoImplicit false

namespace CanonicalLR.Calculator

/-- Sums and differences of products and quotients of integers and parenthesised expressions. -/
def grammarText : String :=
  "E\nE -> E + T | E - T | T\nT -> T * F | T / F | F\nF -> ( E ) | n"

/-- The terminal of a token; blank space has none. -/
def terminalOf : Token → Option Symbol
  | .integer _ => some (.terminal "n")
  | .punctuator c => some (.terminal (String.singleton c))
  | .space => none

def inputOf (tokens : List Token) : List Symbol := tokens.filterMap terminalOf

/-- Parts joined by operators: a part, or a part, an operator, and parts joined by operators. -/
inductive Joined (operators : List Char) (IsPart : List Token → Prop) : List Token → Prop
  | single {tokens : List Token} (part : IsPart tokens) : Joined operators IsPart tokens
  | cons {left right : List Token} {operator : Char} (part : IsPart left)
      (mem : operator ∈ operators) (rest : Joined operators IsPart right) :
      Joined operators IsPart (left ++ .punctuator operator :: right)

/-- An integer, or an expression in parentheses. -/
inductive IsFactor : List Token → Prop
  | integer (digits : String) : IsFactor [.integer digits]
  | group {tokens : List Token} (inner : Joined ['+', '-'] (Joined ['*', '/'] IsFactor) tokens) :
      IsFactor (.punctuator '(' :: tokens ++ [.punctuator ')'])

/-- Factors joined by `*` or `/`. -/
def IsTerm : List Token → Prop := Joined ['*', '/'] IsFactor

/-- Terms joined by `+` or `-`. -/
def IsExpression : List Token → Prop := Joined ['+', '-'] IsTerm

/-- The operators between products. -/
inductive Additive where
  | plus
  | minus
  deriving DecidableEq

/-- The operators between factors. -/
inductive Multiplicative where
  | times
  | divide
  deriving DecidableEq

def Additive.character : Additive → Char
  | .plus => '+'
  | .minus => '-'

def Multiplicative.character : Multiplicative → Char
  | .times => '*'
  | .divide => '/'

mutual

/-- Products joined by additive operators. -/
inductive Sum where
  | ofProduct (product : Product)
  | join (left : Sum) (operator : Additive) (right : Product)

/-- Factors joined by multiplicative operators. -/
inductive Product where
  | ofFactor (factor : Factor)
  | join (left : Product) (operator : Multiplicative) (right : Factor)

/-- An integer, or a sum in parentheses. -/
inductive Factor where
  | integer (digits : String)
  | group (sum : Sum)

end

mutual

def Sum.tokens : Sum → List Token
  | .ofProduct product => product.tokens
  | .join left operator right => left.tokens ++ .punctuator operator.character :: right.tokens

def Product.tokens : Product → List Token
  | .ofFactor factor => factor.tokens
  | .join left operator right => left.tokens ++ .punctuator operator.character :: right.tokens

def Factor.tokens : Factor → List Token
  | .integer digits => [.integer digits]
  | .group sum => .punctuator '(' :: sum.tokens ++ [.punctuator ')']

end

/-- A production of the calculator's grammar, by names. -/
def production (lhs : String) (rhs : List String) : Production :=
  ⟨.ofName lhs, rhs.map Symbol.ofName⟩

mutual

def Sum.productions : Sum → List Production
  | .ofProduct product => product.productions ++ [production "E" ["T"]]
  | .join left operator right =>
    left.productions ++ right.productions ++
      [production "E" ["E", String.singleton operator.character, "T"]]

def Product.productions : Product → List Production
  | .ofFactor factor => factor.productions ++ [production "T" ["F"]]
  | .join left operator right =>
    left.productions ++ right.productions ++
      [production "T" ["T", String.singleton operator.character, "F"]]

def Factor.productions : Factor → List Production
  | .integer _ => [production "F" ["n"]]
  | .group sum => sum.productions ++ [production "F" ["(", "E", ")"]]

end

end CanonicalLR.Calculator
