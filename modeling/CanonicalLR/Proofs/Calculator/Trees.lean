import CanonicalLR.Calculator

/-!
Every expression is spelled by a tree, and what a tree spells is an expression. Strings of parts are
built from the front and trees from the back: parts joined by operators can be extended at the back
(`Joined.snoc`), and whatever is kept by extending them there holds of them (`Joined.snoc_induction`).
-/

set_option autoImplicit false
set_option relaxedAutoImplicit false

namespace CanonicalLR.Calculator

namespace Joined

variable {operators : List Char} {IsPart : List Token → Prop} {tokens : List Token}

/-- One more part behind parts joined by operators. -/
theorem snoc {right : List Token} (joined : Joined operators IsPart tokens) {operator : Char}
    (mem : operator ∈ operators) (part : IsPart right) :
    Joined operators IsPart (tokens ++ .punctuator operator :: right) := by
  induction joined with
  | single first => exact .cons first mem (.single part)
  | cons first mem' _ ih =>
    rw [List.append_assoc, List.cons_append]
    exact .cons first mem' ih

/-- What holds of single parts, and is kept by one more part behind, holds of parts joined by
operators. -/
theorem snoc_induction {Q : List Token → Prop} (single : ∀ part, IsPart part → Q part)
    (snoc : ∀ left operator right, Q left → operator ∈ operators → IsPart right →
      Q (left ++ .punctuator operator :: right)) (joined : Joined operators IsPart tokens) :
    Q tokens := by
  have both : Q tokens ∧ ∀ front operator, Q front → operator ∈ operators →
      Q (front ++ .punctuator operator :: tokens) := by
    induction joined with
    | single part =>
      exact ⟨single _ part, fun front operator before mem => snoc front operator _ before mem part⟩
    | @cons left right middle part mem _ ih =>
      refine ⟨ih.2 left middle (single left part) mem, fun front operator before mem' => ?_⟩
      have longer := ih.2 _ middle (snoc front operator left before mem' part) mem
      simpa [List.append_assoc] using longer
  exact both.1

/-- The parts of a string may be read in another way if this can be done for parts that are no
longer than it. -/
theorem imp {IsOther : List Token → Prop} (joined : Joined operators IsPart tokens)
    (change : ∀ part, part.length ≤ tokens.length → IsPart part → IsOther part) :
    Joined operators IsOther tokens := by
  induction joined with
  | single part => exact .single (change _ (Nat.le_refl _) part)
  | cons part mem _ ih =>
    refine .cons (change _ (by simp) part) mem (ih fun other short => change other ?_)
    rw [List.length_append, List.length_cons]
    omega

end Joined

theorem Additive.exists_of_mem {c : Char} (h : c ∈ ['+', '-']) :
    ∃ operator : Additive, operator.character = c := by
  rw [List.mem_cons, List.mem_singleton] at h
  rcases h with rfl | rfl
  · exact ⟨.plus, rfl⟩
  · exact ⟨.minus, rfl⟩

theorem Multiplicative.exists_of_mem {c : Char} (h : c ∈ ['*', '/']) :
    ∃ operator : Multiplicative, operator.character = c := by
  rw [List.mem_cons, List.mem_singleton] at h
  rcases h with rfl | rfl
  · exact ⟨.times, rfl⟩
  · exact ⟨.divide, rfl⟩

theorem Additive.character_mem (operator : Additive) : operator.character ∈ ['+', '-'] := by
  cases operator <;> decide

theorem Multiplicative.character_mem (operator : Multiplicative) :
    operator.character ∈ ['*', '/'] := by
  cases operator <;> decide

mutual

theorem Sum.isExpression : (sum : Sum) → IsExpression sum.tokens
  | .ofProduct product => .single product.isTerm
  | .join left operator right => left.isExpression.snoc operator.character_mem right.isTerm

theorem Product.isTerm : (product : Product) → IsTerm product.tokens
  | .ofFactor factor => .single factor.isFactor
  | .join left operator right => left.isTerm.snoc operator.character_mem right.isFactor

theorem Factor.isFactor : (factor : Factor) → IsFactor factor.tokens
  | .integer digits => .integer digits
  | .group sum => .group sum.isExpression

end

/-- Factors with trees, joined by operators, have a tree that groups them to the left. -/
private theorem exists_product {tokens : List Token}
    (joined : Joined ['*', '/'] (fun part => ∃ factor : Factor, factor.tokens = part) tokens) :
    ∃ product : Product, product.tokens = tokens := by
  refine joined.snoc_induction (Q := fun tokens => ∃ product : Product, product.tokens = tokens) ?_ ?_
  · rintro _ ⟨factor, rfl⟩
    exact ⟨.ofFactor factor, rfl⟩
  · rintro _ _ _ ⟨left, rfl⟩ mem ⟨right, rfl⟩
    obtain ⟨operator, rfl⟩ := Multiplicative.exists_of_mem mem
    exact ⟨.join left operator right, rfl⟩

/-- Products with trees, joined by operators, have a tree that groups them to the left. -/
private theorem exists_sum {tokens : List Token}
    (joined : Joined ['+', '-'] (fun part => ∃ product : Product, product.tokens = part) tokens) :
    ∃ sum : Sum, sum.tokens = tokens := by
  refine joined.snoc_induction (Q := fun tokens => ∃ sum : Sum, sum.tokens = tokens) ?_ ?_
  · rintro _ ⟨product, rfl⟩
    exact ⟨.ofProduct product, rfl⟩
  · rintro _ _ _ ⟨left, rfl⟩ mem ⟨right, rfl⟩
    obtain ⟨operator, rfl⟩ := Additive.exists_of_mem mem
    exact ⟨.join left operator right, rfl⟩

theorem IsFactor.exists_tree {tokens : List Token} (h : IsFactor tokens) :
    ∃ factor : Factor, factor.tokens = tokens := by
  -- the parts of what stands in parentheses are shorter, whatever their nesting
  generalize length : tokens.length = n
  induction n using Nat.strongRecOn generalizing tokens with
  | ind n ih =>
    subst length
    cases h with
    | integer digits => exact ⟨.integer digits, rfl⟩
    | @group inside inner =>
      have parts : Joined ['+', '-'] (fun part => ∃ product : Product, product.tokens = part)
          inside := by
        refine inner.imp fun term short joined => exists_product ?_
        refine joined.imp fun factor short' part => ih factor.length ?_ part rfl
        simp only [List.cons_append, List.length_cons, List.length_append, List.length_nil]
        omega
      obtain ⟨sum, rfl⟩ := exists_sum parts
      exact ⟨.group sum, rfl⟩

/-- The expressions are what the trees spell. -/
theorem isExpression_iff {tokens : List Token} :
    IsExpression tokens ↔ ∃ sum : Sum, sum.tokens = tokens := by
  constructor
  · intro joined
    refine exists_sum (joined.imp fun part _ term => ?_)
    exact exists_product (term.imp fun part _ factor => factor.exists_tree)
  · rintro ⟨sum, rfl⟩
    exact sum.isExpression

end CanonicalLR.Calculator
