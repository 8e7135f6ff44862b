import CanonicalLR.Proofs.Grammar.Names
import Mathlib.Data.List.Induction

/-!
Derivations of terminal strings, taken apart symbol by symbol. An expansion lists the productions in
the order in which a bottom-up parser meets them: those of a symbol's right-hand side before the
symbol's own, and those of a symbol before those of what stands to its right. Read backwards the list
is a rightmost derivation, every rightmost derivation of a terminal string is one read backwards, and
whatever derives a terminal string has an expansion. A non-terminal in a rightmost derivation has come
there in the right-hand side of an earlier production (`RightmostDerives.ancestry`).
-/

set_option autoImplicit false
set_option relaxedAutoImplicit false

namespace CanonicalLR.Grammar

/-- A string expands to a terminal string by productions, listed bottom-up and from left to right. -/
inductive Expands (g : Grammar) : List Production → List Symbol → List Symbol → Prop
  | nil : Expands g [] [] []
  | terminal {s : Symbol} {productions : List Production} {u v : List Symbol}
      (kind : s.isTerminal = true) (rest : Expands g productions u v) :
      Expands g productions (s :: u) (s :: v)
  | nonTerminal {production : Production} {inner outer : List Production} {u v w : List Symbol}
      (mem : production ∈ g.productions) (body : Expands g inner production.rhs v)
      (rest : Expands g outer u w) :
      Expands g (inner ++ production :: outer) (production.lhs :: u) (v ++ w)

variable {g : Grammar}

/-- A symbol in a string of two parts stands in the first part or in the second one. -/
theorem cases_of_append_eq {x y left behind : List Symbol} {s : Symbol}
    (h : x ++ y = left ++ s :: behind) :
    (∃ z, x = left ++ s :: z ∧ behind = z ++ y) ∨ ∃ z, left = x ++ z ∧ y = z ++ s :: behind := by
  rcases List.append_eq_append_iff.mp h with ⟨z, front, back⟩ | ⟨z, front, back⟩
  · exact .inr ⟨z, front, back⟩
  · cases z with
    | nil => exact .inr ⟨[], by simpa using front.symm, by simpa using back.symm⟩
    | cons t z =>
      obtain ⟨rfl, rest⟩ := List.cons_eq_cons.mp back
      exact .inl ⟨z, front, rest⟩

private theorem Produces.split {u x w : List Symbol} (step : g.Produces (u ++ x) w) :
    (∃ v, w = v ++ x ∧ g.Produces u v) ∨ ∃ y, w = u ++ y ∧ g.Produces x y := by
  generalize whole : u ++ x = string at step
  cases step with
  | replace mem left right =>
    rcases cases_of_append_eq whole with ⟨z, rfl, rfl⟩ | ⟨z, rfl, rfl⟩
    · exact .inl ⟨_, by simp only [List.append_assoc], .replace mem left z⟩
    · exact .inr ⟨_, by simp only [List.append_assoc], .replace mem z right⟩

namespace Derives

/-- What two strings derive together, each of them derives a part of. -/
theorem split {u x w : List Symbol} (h : g.Derives (u ++ x) w) :
    ∃ v y, w = v ++ y ∧ g.Derives u v ∧ g.Derives x y := by
  induction h with
  | refl => exact ⟨u, x, rfl, .refl, .refl⟩
  | tail _ step ih =>
    obtain ⟨v, y, rfl, left, right⟩ := ih
    rcases step.split with ⟨v', rfl, next⟩ | ⟨y', rfl, next⟩
    · exact ⟨v', y, rfl, left.tail next, right⟩
    · exact ⟨v, y', rfl, left, right.tail next⟩

/-- Where only non-terminals stand on left-hand sides, a terminal string derives nothing else. -/
theorem eq_of_isTerminal (lhs : g.LeftHandSidesNonTerminal) {u v : List Symbol}
    (terminals : ∀ s ∈ u, s.isTerminal = true) (h : g.Derives u v) : v = u := by
  induction h with
  | refl => rfl
  | tail _ step ih =>
    subst ih
    cases step with
    | @replace production mem left right =>
      have kind := terminals production.lhs (by simp)
      rw [Symbol.isTerminal_eq_not, lhs _ mem] at kind
      cases kind

/-- Terminals at the end stay there, and what stands before them is derived without them. -/
theorem of_append_terminals (lhs : g.LeftHandSidesNonTerminal) {u v tail : List Symbol}
    (terminals : ∀ s ∈ tail, s.isTerminal = true) (h : g.Derives (u ++ tail) v) :
    ∃ w, v = w ++ tail ∧ g.Derives u w := by
  obtain ⟨w, y, rfl, front, back⟩ := h.split
  exact ⟨w, by rw [back.eq_of_isTerminal lhs terminals], front⟩

end Derives

namespace Expands

theorem isTerminal {productions : List Production} {u v : List Symbol}
    (h : g.Expands productions u v) : ∀ s ∈ v, s.isTerminal = true := by
  induction h with
  | nil => nofun
  | terminal kind _ ih => exact List.forall_mem_cons.mpr ⟨kind, ih⟩
  | nonTerminal _ _ _ body rest =>
    exact fun s hs => (List.mem_append.mp hs).elim (body s) (rest s)

theorem self {u : List Symbol} (terminals : ∀ s ∈ u, s.isTerminal = true) : g.Expands [] u u := by
  induction u with
  | nil => exact .nil
  | cons s u ih =>
    obtain ⟨head, tail⟩ := List.forall_mem_cons.mp terminals
    exact .terminal head (ih tail)

theorem append {left right : List Production} {u v x y : List Symbol}
    (first : g.Expands left u v) (second : g.Expands right x y) :
    g.Expands (left ++ right) (u ++ x) (v ++ y) := by
  induction first with
  | nil => exact second
  | terminal kind _ ih => exact .terminal kind ih
  | nonTerminal mem body _ _ ih =>
    simpa [List.append_assoc] using Expands.nonTerminal mem body ih

/-- The parts of a string are expanded one after the other. -/
theorem split {u x : List Symbol} {productions : List Production} {w : List Symbol}
    (h : g.Expands productions (u ++ x) w) :
    ∃ left right v y, productions = left ++ right ∧ w = v ++ y ∧
      g.Expands left u v ∧ g.Expands right x y := by
  generalize whole : u ++ x = string at h
  induction h generalizing u with
  | nil =>
    obtain ⟨rfl, rfl⟩ := List.append_eq_nil_iff.mp whole
    exact ⟨[], [], [], [], rfl, rfl, .nil, .nil⟩
  | @terminal s productions string w kind rest ih =>
    cases u with
    | nil =>
      subst whole
      exact ⟨[], productions, [], s :: w, rfl, rfl, .nil, .terminal kind rest⟩
    | cons t u =>
      obtain ⟨rfl, tail⟩ := List.cons_eq_cons.mp whole
      obtain ⟨left, right, v, y, rfl, rfl, first, second⟩ := ih tail
      exact ⟨left, right, t :: v, y, rfl, rfl, .terminal kind first, second⟩
  | @nonTerminal production inner outer string v w mem body rest _ ih =>
    cases u with
    | nil =>
      subst whole
      exact ⟨[], inner ++ production :: outer, [], v ++ w, rfl, rfl, .nil,
        .nonTerminal mem body rest⟩
    | cons t u =>
      obtain ⟨rfl, tail⟩ := List.cons_eq_cons.mp whole
      obtain ⟨left, right, v', y, rfl, rfl, first, second⟩ := ih tail
      exact ⟨inner ++ production :: left, right, v ++ v', y, by simp, by simp,
        .nonTerminal mem body first, second⟩

/-- Where only non-terminals stand on left-hand sides, a terminal string expands to nothing else. -/
theorem eq_of_isTerminal (lhs : g.LeftHandSidesNonTerminal) {productions : List Production}
    {u v : List Symbol} (h : g.Expands productions u v) (terminals : ∀ s ∈ u, s.isTerminal = true) :
    productions = [] ∧ v = u := by
  induction h with
  | nil => exact ⟨rfl, rfl⟩
  | terminal _ _ ih =>
    obtain ⟨none, same⟩ := ih (List.forall_mem_cons.mp terminals).2
    exact ⟨none, by rw [same]⟩
  | nonTerminal mem _ _ _ _ =>
    have kind := (List.forall_mem_cons.mp terminals).1
    rw [Symbol.isTerminal_eq_not, lhs _ mem] at kind
    cases kind

theorem mono {h : Grammar} (subset : ∀ p ∈ g.productions, p ∈ h.productions)
    {productions : List Production} {u v : List Symbol} (expands : g.Expands productions u v) :
    h.Expands productions u v := by
  induction expands with
  | nil => exact .nil
  | terminal kind _ ih => exact .terminal kind ih
  | nonTerminal mem _ _ inner outer => exact .nonTerminal (subset _ mem) inner outer

theorem derives {productions : List Production} {u v : List Symbol}
    (h : g.Expands productions u v) : g.Derives u v := by
  induction h with
  | nil => exact .refl
  | @terminal s _ _ _ _ _ ih => simpa using ih.append [s] []
  | @nonTerminal production _ _ u v w mem _ _ body rest =>
    simpa using ((Derives.of_mem mem).trans body).concat rest

end Expands

namespace RightmostDerives

theorem mono {h : Grammar} (subset : ∀ p ∈ g.productions, p ∈ h.productions)
    {productions : List Production} {u v : List Symbol}
    (derives : g.RightmostDerives productions u v) : h.RightmostDerives productions u v := by
  induction derives with
  | refl => exact .refl _
  | head mem terminals _ ih => exact .head (subset _ mem) terminals ih

theorem trans {first second : List Production} {u v w : List Symbol}
    (left : g.RightmostDerives first u v) (right : g.RightmostDerives second v w) :
    g.RightmostDerives (first ++ second) u w := by
  induction left with
  | refl => exact right
  | head mem terminals _ ih => exact .head mem terminals (ih right)

/-- A rightmost derivation goes on before terminals and behind anything. -/
theorem append {productions : List Production} {u v : List Symbol}
    (h : g.RightmostDerives productions u v) (before : List Symbol) {after : List Symbol}
    (terminals : ∀ s ∈ after, s.isTerminal = true) :
    g.RightmostDerives productions (before ++ u ++ after) (before ++ v ++ after) := by
  induction h with
  | refl => exact .refl _
  | @head production left right v productions mem behind _ ih =>
    have step : g.RightmostDerives (production :: productions)
        ((before ++ left) ++ production.lhs :: (right ++ after)) (before ++ v ++ after) :=
      .head mem (fun s hs => (List.mem_append.mp hs).elim (behind s) (terminals s))
        (by simpa [List.append_assoc] using ih)
    simpa [List.append_assoc] using step

theorem append_left {productions : List Production} {u v : List Symbol}
    (h : g.RightmostDerives productions u v) (before : List Symbol) :
    g.RightmostDerives productions (before ++ u) (before ++ v) := by
  have step := @append g productions u v h before [] nofun
  simpa only [List.append_nil] using step

theorem of_append {first second : List Production} {u w : List Symbol}
    (h : g.RightmostDerives (first ++ second) u w) :
    ∃ v, g.RightmostDerives first u v ∧ g.RightmostDerives second v w := by
  induction first generalizing u with
  | nil => exact ⟨u, .refl u, h⟩
  | cons production first ih =>
    cases h with
    | head mem terminals rest =>
      obtain ⟨v, front, back⟩ := ih rest
      exact ⟨v, .head mem terminals front, back⟩

/-- A non-terminal in a rightmost derivation is the one at its start, or it has come there in the
right-hand side of a production that was applied earlier. Behind it stands what has been derived from
the rest of that right-hand side and from the terminals behind it. -/
theorem ancestry {productions : List Production} {root s : Symbol} {left behind : List Symbol}
    (kind : s.isNonTerminal = true)
    (h : g.RightmostDerives productions [root] (left ++ s :: behind)) :
    (left = [] ∧ s = root ∧ behind = []) ∨
      ∃ earlier production outer before after tail, earlier.length < productions.length ∧
        g.RightmostDerives earlier [root] (outer ++ production.lhs :: tail) ∧
        production ∈ g.productions ∧ (∀ t ∈ tail, t.isTerminal = true) ∧
        production.rhs = before ++ s :: after ∧ left = outer ++ before ∧
        g.Derives (after ++ tail) behind := by
  induction productions using List.reverseRecOn generalizing left behind with
  | nil =>
    generalize whole : left ++ s :: behind = form at h
    cases h with
    | refl =>
      obtain ⟨rfl, rest⟩ | ⟨_, rest⟩ := List.append_eq_singleton_iff.mp whole
      · obtain ⟨rfl, rfl⟩ := List.cons_eq_cons.mp rest
        exact .inl ⟨rfl, rfl, rfl⟩
      · cases rest
  | append_singleton earlier production ih =>
    obtain ⟨form, front, last⟩ := h.of_append
    generalize whole : left ++ s :: behind = next at last
    cases last with
    | @head _ l r _ _ mem terminals rest =>
      cases rest with
      | refl =>
        rw [List.append_assoc] at whole
        have shorter : earlier.length < (earlier ++ [production]).length := by simp
        rcases cases_of_append_eq whole.symm with ⟨z, rfl, rfl⟩ | ⟨z, rfl, inner⟩
        · -- the production was applied behind the symbol
          rw [List.append_assoc, List.cons_append] at front
          rcases ih front with ⟨_, _, nothing⟩ |
            ⟨first, parent, outer, before, after, tail, less, form, here, ends, rhs, path, derives⟩
          · simp at nothing
          · refine .inr ⟨first, parent, outer, before, after, tail, Nat.lt_trans less shorter, form,
              here, ends, rhs, path, derives.tail ?_⟩
            simpa [List.append_assoc] using Produces.replace mem z r
        · rcases cases_of_append_eq inner with ⟨y, rhs, rfl⟩ | ⟨y, _, tail⟩
          · exact .inr ⟨earlier, production, l, z, y, r, shorter, front, mem, terminals, rhs, rfl,
              .refl⟩
          · have terminal := terminals s (by simp [tail])
            rw [Symbol.isTerminal_eq_not, kind] at terminal
            cases terminal

/-- Every rightmost derivation of a terminal string is an expansion read backwards. -/
theorem expands (lhs : g.LeftHandSidesNonTerminal) {productions : List Production}
    {u w : List Symbol} (h : g.RightmostDerives productions u w)
    (terminals : ∀ s ∈ w, s.isTerminal = true) : g.Expands productions.reverse u w := by
  induction h with
  | refl => exact .self terminals
  | @head production left right w productions mem behind _ ih =>
    obtain ⟨front, last, v, z, whole, rfl, first, third⟩ := (ih terminals).split
    obtain ⟨outer, inner, x, y, rfl, rfl, first, second⟩ := first.split
    obtain ⟨rfl, rfl⟩ := third.eq_of_isTerminal lhs behind
    have joined := first.append (.nonTerminal mem second third)
    simpa [whole, List.append_assoc] using joined

end RightmostDerives

theorem Expands.rightmostDerives {productions : List Production} {u w : List Symbol}
    (h : g.Expands productions u w) : g.RightmostDerives productions.reverse u w := by
  induction h with
  | nil => exact .refl _
  | @terminal s productions u v kind rest ih => exact ih.append_left [s]
  | @nonTerminal production inner outer u v w mem body rest inside behind =>
    have last : g.RightmostDerives inner.reverse (production.rhs ++ w) (v ++ w) := by
      simpa using inside.append [] rest.isTerminal
    have middle : g.RightmostDerives (production :: inner.reverse) (production.lhs :: w) (v ++ w) :=
      @RightmostDerives.head g production [] w (v ++ w) inner.reverse mem rest.isTerminal last
    have first : g.RightmostDerives outer.reverse (production.lhs :: u) (production.lhs :: w) :=
      behind.append_left [production.lhs]
    simpa using first.trans middle

private theorem Produces.exists_expands {u v w : List Symbol} (step : g.Produces u v)
    (h : ∃ productions, g.Expands productions v w) : ∃ productions, g.Expands productions u w := by
  obtain ⟨productions, expands⟩ := h
  cases step with
  | @replace production mem left right =>
    obtain ⟨front, last, v, z, rfl, rfl, first, third⟩ := expands.split
    obtain ⟨outer, inner, x, y, rfl, rfl, first, second⟩ := first.split
    exact ⟨_, by simpa using first.append (.nonTerminal mem second third)⟩

/-- Whatever derives a terminal string has an expansion to it. -/
theorem Derives.exists_expands {u w : List Symbol} (h : g.Derives u w)
    (terminals : ∀ s ∈ w, s.isTerminal = true) : ∃ productions, g.Expands productions u w := by
  have back : ∀ v, g.Derives u v → (∃ productions, g.Expands productions v w) →
      ∃ productions, g.Expands productions u w := by
    intro v derives
    induction derives with
    | refl => exact id
    | tail _ step ih => exact fun later => ih (step.exists_expands later)
  exact back w h ⟨[], .self terminals⟩

end CanonicalLR.Grammar
