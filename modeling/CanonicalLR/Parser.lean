import CanonicalLR.Machine

/-!
Canonical LR(1) parsers: a grammar, prepared for parsing, with its automaton and its action table.
-/

set_option autoImplicit false
set_option relaxedAutoImplicit false

namespace CanonicalLR

/-- A prepared grammar, its automaton and its action table. -/
structure Parser where
  grammar : Grammar
  automaton : Automaton
  table : ActionTable
  deriving BEq, DecidableEq

namespace Parser

/-- The parser of a grammar, which is augmented for it whether or not it looks so already. -/
def ofGrammar (g : Grammar) : Except BuildError Parser := do
  let g := g.prepare
  let automaton ← Automaton.ofGrammar g
  let table ← ActionTable.ofAutomaton g automaton
  pure ⟨g, automaton, table⟩

def machine (p : Parser) : Machine := ⟨p.grammar, p.table⟩

/-- The run of a parser on an input, if it ends within `limit` steps. -/
def parse (p : Parser) (limit : Nat) (input : List Symbol) : Option (Except Defect Trace) :=
  p.machine.run limit input

end Parser

end CanonicalLR
