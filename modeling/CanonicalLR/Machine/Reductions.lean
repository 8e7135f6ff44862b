import CanonicalLR.Machine

/-!
The reductions of a trace: the production of each, and how deep in the stack it was made. What the
machine reads of an input is the part before the first end mark. A run may also be looked at before it
ends, by the configurations that it comes to.
-/

set_option autoImplicit false
set_option relaxedAutoImplicit false

namespace CanonicalLR.Machine

/-- The production that a row reduces by, and the number of frames below its right-hand side. Its
left-hand side, which is on top of the stack after the row, has so many symbols before it. -/
def reduction? (m : Machine) (row : TraceRow) : Option (Production × Nat) :=
  match row.action with
  | .reduce rule =>
    (m.grammar.rule? rule).map fun production =>
      (production, row.configuration.stack.length - production.rhs.length)
  | _ => none

/-- The part of an input before its first end mark. -/
def content (input : List Symbol) : List Symbol := input.takeWhile (!·.isEndMark)

def reductions (m : Machine) (rows : List TraceRow) : List (Production × Nat) :=
  rows.filterMap m.reduction?

/-- The end mark behind an input is not part of its content. -/
@[simp] theorem content_complete (input : List Symbol) : content (complete input) = content input := by
  have behind : content (input ++ [.endMark]) = content input := by
    induction input with
    | nil => rfl
    | cons s input ih =>
      unfold content at ih ⊢
      rw [List.cons_append, List.takeWhile_cons, List.takeWhile_cons, ih]
  unfold complete
  split
  · split
    · rfl
    · exact behind
  · next none =>
    rw [List.getLast?_eq_none_iff.mp none]
    rfl

theorem complete_of_visible {input : List Symbol} (visible : ∀ s ∈ input, s.isEndMark = false) :
    complete input = input ++ [.endMark] := by
  unfold complete
  split
  · next last found => simp [visible last (List.mem_of_getLast? found)]
  · next none => rw [List.getLast?_eq_none_iff.mp none, List.nil_append]

/-- There is an end mark in a completed input. -/
theorem exists_endMark_complete (input : List Symbol) :
    ∃ s ∈ complete input, s.isEndMark = true := by
  unfold complete
  split
  · next last found =>
    split
    · next mark => exact ⟨last, List.mem_of_getLast? found, mark⟩
    · exact ⟨.endMark, List.mem_append_right _ (List.mem_singleton_self _), rfl⟩
  · exact ⟨.endMark, List.mem_singleton_self _, rfl⟩

/-- In a completed input all symbols of the input stand, the last one, too. -/
theorem exists_complete_concat (input : List Symbol) (s : Symbol) :
    ∃ rest, complete (input ++ [s]) = input ++ s :: rest := by
  unfold complete
  rw [List.getLast?_concat]
  by_cases mark : s.isEndMark = true
  · exact ⟨[], if_pos mark⟩
  · exact ⟨[.endMark], by simp [mark]⟩

/-- As long as no end mark has been taken, there is a rest of the input. -/
theorem input_eq_of_complete {input taken : List Symbol} {c : Configuration}
    (whole : complete input = taken ++ c.input) (visible : ∀ s ∈ taken, s.isEndMark = false) :
    c.input = c.current :: c.input.tail := by
  obtain ⟨stack, rest⟩ := c
  cases rest with
  | nil =>
    obtain ⟨s, mem, ends⟩ := exists_endMark_complete input
    rw [whole, List.append_nil] at mem
    rw [visible s mem] at ends
    cases ends
  | cons s rest => rfl

theorem content_append {taken rest : List Symbol} (visible : ∀ s ∈ taken, s.isEndMark = false)
    (ends : content rest = []) : content (taken ++ rest) = taken := by
  induction taken with
  | nil => exact ends
  | cons s taken ih =>
    obtain ⟨first, later⟩ := List.forall_mem_cons.mp visible
    have tail := ih later
    unfold content at tail ⊢
    rw [List.cons_append, List.takeWhile_cons, first, tail]
    rfl

theorem content_of_current {c : Configuration} (mark : c.current = .endMark) :
    content c.input = [] := by
  obtain ⟨stack, input⟩ := c
  cases input with
  | nil => rfl
  | cons s input =>
    obtain rfl : s = .endMark := mark
    rfl

/-- A run on an input comes to a configuration after a number of steps. -/
inductive Reaches (m : Machine) (input : List Symbol) : Nat → Configuration → Prop
  | start : Reaches m input 0 (initial input)
  | next {n : Nat} {c c' : Configuration} (reaches : Reaches m input n c)
      (step : m.step c = .next c') : Reaches m input (n + 1) c'

variable {m : Machine} {input : List Symbol}

theorem Reaches.unique {n : Nat} {c d : Configuration} (left : m.Reaches input n c)
    (right : m.Reaches input n d) : c = d := by
  induction left generalizing d with
  | start => cases right with | start => rfl
  | next _ step ih =>
    cases right with
    | next reaches step' =>
      rw [ih reaches] at step
      exact Step.next.inj (step.symm.trans step')

end CanonicalLR.Machine
