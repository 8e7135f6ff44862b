import CanonicalLR.Grammar.Basic

/-!
Derivations by the productions of a grammar, and what they generate. A rightmost derivation replaces
the last non-terminal at every step; it is recorded by its productions, from first to last. A
derivation inside a string is one of the whole string, and a rightmost derivation is a derivation.

What is usually expected of a grammar is that only non-terminals stand on left-hand sides, that a name
has one kind, that the end mark is not among its symbols, and that every non-terminal derives a string
of terminals. A grammar need not keep to any of it. So a string may be known to begin with a terminal
although nothing ever comes of it: the productions of a non-terminal are of use only where something
that stands behind the non-terminal can begin or vanish as well. Offers are the beginnings that respect
this.
-/

set_option autoImplicit false
set_option relaxedAutoImplicit false

namespace CanonicalLR.Grammar

/-- One symbol of a string is replaced by a right-hand side of it. -/
inductive Produces (g : Grammar) : List Symbol → List Symbol → Prop
  | replace {production : Production} (mem : production ∈ g.productions)
      (left right : List Symbol) :
      Produces g (left ++ production.lhs :: right) (left ++ production.rhs ++ right)

/-- A string can be derived from another in any number of steps. -/
inductive Derives (g : Grammar) (u : List Symbol) : List Symbol → Prop
  | refl : Derives g u u
  | tail {v w : List Symbol} (derives : Derives g u v) (step : Produces g v w) : Derives g u w

/-- A string is derived from another by productions, each applied to a symbol behind which there are
only terminals. -/
inductive RightmostDerives (g : Grammar) : List Production → List Symbol → List Symbol → Prop
  | refl (u : List Symbol) : RightmostDerives g [] u u
  | head {production : Production} {left right v : List Symbol} {productions : List Production}
      (mem : production ∈ g.productions) (terminals : ∀ s ∈ right, s.isTerminal)
      (rest : RightmostDerives g productions (left ++ production.rhs ++ right) v) :
      RightmostDerives g (production :: productions) (left ++ production.lhs :: right) v

/-- Productions are applied one after the other, each to the symbol that has a given number of
symbols before it; `behind` holds of the symbols that stand behind one to which a production is
applied. -/
inductive RewritesAt (g : Grammar) (behind : Symbol → Prop) :
    List (Production × Nat) → List Symbol → List Symbol → Prop
  | refl (u : List Symbol) : RewritesAt g behind [] u u
  | head {production : Production} {left right v : List Symbol} {steps : List (Production × Nat)}
      (mem : production ∈ g.productions) (right_behind : ∀ s ∈ right, behind s)
      (rest : RewritesAt g behind steps (left ++ production.rhs ++ right) v) :
      RewritesAt g behind ((production, left.length) :: steps) (left ++ production.lhs :: right) v

/-- A string of terminals that the start symbol derives. -/
def IsSentence (g : Grammar) (w : List Symbol) : Prop :=
  (∀ s ∈ w, s.isTerminal) ∧ g.Derives [g.start] w

variable {g : Grammar}

theorem Produces.append {u v : List Symbol} (h : g.Produces u v) (before after : List Symbol) :
    g.Produces (before ++ u ++ after) (before ++ v ++ after) := by
  cases h with
  | @replace production mem left right =>
    have step := Produces.replace mem (before ++ left) (right ++ after)
    simpa [List.append_assoc] using step

namespace Derives

theorem single {u v : List Symbol} (h : g.Produces u v) : g.Derives u v := .tail .refl h

theorem trans {u v w : List Symbol} (left : g.Derives u v) (right : g.Derives v w) :
    g.Derives u w := by
  induction right with
  | refl => exact left
  | tail _ step ih => exact .tail ih step

/-- What stands before and after a derived string stays. -/
theorem append {u v : List Symbol} (h : g.Derives u v) (before after : List Symbol) :
    g.Derives (before ++ u ++ after) (before ++ v ++ after) := by
  induction h with
  | refl => exact .refl
  | tail _ step ih => exact .tail ih (step.append before after)

theorem concat {u v u' v' : List Symbol} (left : g.Derives u v) (right : g.Derives u' v') :
    g.Derives (u ++ u') (v ++ v') := by
  have first := left.append [] u'
  have second := right.append v []
  simp only [List.nil_append, List.append_nil] at first second
  exact first.trans second

/-- What vanishes symbol by symbol vanishes. -/
theorem of_forall_vanishes {u : List Symbol} (vanish : ∀ s ∈ u, g.Derives [s] []) :
    g.Derives u [] := by
  induction u with
  | nil => exact .refl
  | cons s u ih =>
    obtain ⟨first, later⟩ := List.forall_mem_cons.mp vanish
    exact first.concat (ih later)

end Derives

theorem RightmostDerives.derives {productions : List Production} {u v : List Symbol}
    (h : g.RightmostDerives productions u v) : g.Derives u v := by
  induction h with
  | refl => exact .refl
  | head mem _ _ ih => exact (Derives.single (.replace mem _ _)).trans ih

namespace RewritesAt

variable {behind : Symbol → Prop} {steps : List (Production × Nat)} {u v : List Symbol}

theorem derives (h : g.RewritesAt behind steps u v) : g.Derives u v := by
  induction h with
  | refl => exact .refl
  | head mem _ _ ih => exact (Derives.single (.replace mem _ _)).trans ih

theorem append (h : g.RewritesAt behind steps u v) {after : List Symbol}
    (after_behind : ∀ s ∈ after, behind s) : g.RewritesAt behind steps (u ++ after) (v ++ after) := by
  induction h with
  | refl => exact .refl _
  | @head production left right v steps mem right_behind _ ih =>
    have step : g.RewritesAt behind ((production, left.length) :: steps)
        (left ++ production.lhs :: (right ++ after)) (v ++ after) :=
      .head mem (fun s hs => (List.mem_append.mp hs).elim (right_behind s) (after_behind s))
        (by simpa [List.append_assoc] using ih)
    simpa [List.append_assoc] using step

theorem trans {later : List (Production × Nat)} {w : List Symbol}
    (left : g.RewritesAt behind steps u v) (right : g.RewritesAt behind later v w) :
    g.RewritesAt behind (steps ++ later) u w := by
  induction left with
  | refl => exact right
  | head mem right_behind _ ih => exact .head mem right_behind (ih right)

/-- With terminals behind them the productions make a rightmost derivation. -/
theorem rightmostDerives (h : g.RewritesAt (fun s => s.isTerminal = true) steps u v) :
    g.RightmostDerives (steps.map (·.1)) u v := by
  induction h with
  | refl => exact .refl _
  | head mem terminals _ ih => exact .head mem terminals ih

end RewritesAt

/-- The start symbol, the left-hand sides and the symbols of the right-hand sides. -/
def symbols (g : Grammar) : List Symbol :=
  g.start :: (g.productions.toList.map (·.lhs) ++ g.occurrences)

/-- Only non-terminals stand on left-hand sides. -/
def LeftHandSidesNonTerminal (g : Grammar) : Prop :=
  ∀ production ∈ g.productions.toList, production.lhs.isNonTerminal

/-- No name occurs with both kinds. -/
def OneKindPerName (g : Grammar) : Prop :=
  ∀ a ∈ g.symbols, ∀ b ∈ g.symbols, a.name = b.name → a = b

/-- The name of the end mark does not occur. -/
def AvoidsEndMark (g : Grammar) : Prop := ∀ a ∈ g.symbols, a.isEndMark = false

/-- The name of the end mark is not that of a non-terminal; a terminal may have it. -/
def EndMarkIsTerminal (g : Grammar) : Prop :=
  ∀ a ∈ g.symbols, a.isNonTerminal → a.isEndMark = false

/-- Every non-terminal, the start symbol included, derives a string of terminals. -/
def Productive (g : Grammar) : Prop :=
  ∀ a ∈ g.symbols, a.isNonTerminal → ∃ w : List Symbol, (∀ s ∈ w, s.isTerminal) ∧ g.Derives [a] w

instance (g : Grammar) : Decidable g.LeftHandSidesNonTerminal := by
  unfold LeftHandSidesNonTerminal
  infer_instance

instance (g : Grammar) : Decidable g.OneKindPerName := by
  unfold OneKindPerName
  infer_instance

instance (g : Grammar) : Decidable g.AvoidsEndMark := by
  unfold AvoidsEndMark
  infer_instance

instance (g : Grammar) : Decidable g.EndMarkIsTerminal := by
  unfold EndMarkIsTerminal
  infer_instance

theorem AvoidsEndMark.endMarkIsTerminal {g : Grammar} (avoids : g.AvoidsEndMark) :
    g.EndMarkIsTerminal := fun a mem _ => avoids a mem

theorem lhs_mem_symbols {g : Grammar} {production : Production} (h : production ∈ g.productions) :
    production.lhs ∈ g.symbols :=
  List.mem_cons_of_mem _ (List.mem_append_left _ (List.mem_map_of_mem h))

theorem rhs_subset_symbols {g : Grammar} {production : Production}
    (h : production ∈ g.productions) : production.rhs ⊆ g.symbols := fun _ hs =>
  List.mem_cons_of_mem _ (List.mem_append_right _ (List.mem_flatMap.mpr ⟨production, h, hs⟩))

/-- A string derives the empty string or one that begins with a terminal. -/
def Opens (g : Grammar) (u : List Symbol) : Prop :=
  g.Derives u [] ∨ ∃ a v, a.isTerminal = true ∧ g.Derives u (a :: v)

/-- A string offers a terminal if it begins with it; if a production of its first symbol offers it and
what stands behind this symbol opens; or if its first symbol can vanish and the rest offers it. -/
inductive Offers (g : Grammar) (a : Symbol) : List Symbol → Prop
  | here (rest : List Symbol) : Offers g a (a :: rest)
  | inside {production : Production} {rest : List Symbol} (mem : production ∈ g.productions)
      (body : Offers g a production.rhs) (opens : g.Opens rest) :
      Offers g a (production.lhs :: rest)
  | behind {s : Symbol} {rest : List Symbol} (vanishes : g.Derives [s] [])
      (later : Offers g a rest) : Offers g a (s :: rest)

/-- A production of the first symbol begins with the second one, and all that stands behind it
vanishes. -/
def Wraps (g : Grammar) (s t : Symbol) : Prop :=
  ∃ production ∈ g.productions, production.lhs = s ∧
    ∃ rest, production.rhs = t :: rest ∧ g.Derives rest []

end CanonicalLR.Grammar
