import CanonicalLR.Automaton
import CanonicalLR.Proofs.Machine.Paths

/-!
Walks through the automaton and paths on the stack. A walk from the state on top of a path goes on as a
path, and the symbols of a path are a walk from state 0 to its last state; so a machine shifts the
terminals of a walk.
-/

set_option autoImplicit false
set_option relaxedAutoImplicit false

namespace CanonicalLR

namespace Automaton

variable {a : Automaton}

/-- Transitions tell symbols apart by name, and so do paths. -/
theorem walk?_congr (source : Nat) {string spelled : List Symbol}
    (same : (string == spelled) = true) : a.walk? source string = a.walk? source spelled := by
  induction string generalizing source spelled with
  | nil =>
    cases spelled with
    | nil => rfl
    | cons t spelled => cases same
  | cons s string ih =>
    cases spelled with
    | nil => cases same
    | cons t spelled =>
      obtain ⟨head, tail⟩ := Bool.and_eq_true_iff.mp (List.cons_beq_cons.symm.trans same)
      have step := transition?_congr (a := a) source (Symbol.beq_iff_name_eq.mp head)
      simp only [walk?, step]
      cases a.transition? source t with
      | none => rfl
      | some target => exact ih target tail

end Automaton

namespace Automaton.Canonical

variable {g : Grammar} {goal : Symbol} {a : Automaton} (canonical : a.Canonical g goal)
include canonical

/-- The symbols after the dot of an item can be followed, and the dot moves over them. -/
theorem exists_walk?_of_hasItem {id : Nat} {lhs b : Symbol} {before front back : List Symbol}
    (here : a.HasItem id ⟨lhs, before, front ++ back, b⟩) :
    ∃ target, a.walk? id front = some target ∧
      a.HasItem target ⟨lhs, before ++ front, back, b⟩ := by
  induction front generalizing id before with
  | nil => exact ⟨id, rfl, by simpa using here⟩
  | cons s front ih =>
    obtain ⟨next, step, there⟩ := canonical.advance here rfl
    obtain ⟨target, walk, last⟩ := ih there
    exact ⟨target, (walk?_cons step).trans walk, by simpa using last⟩

/-- What can be followed from the state on top of a path goes on as a path, on the same symbols up to
their kinds. -/
theorem exists_path_of_walk? {stack : List Frame} (path : Path g a stack) {string : List Symbol}
    {id : Nat} (walk : a.walk? (topState stack) string = some id) :
    ∃ more : List Frame, Path g a (more ++ stack) ∧ topState (more ++ stack) = id ∧
      (string == more.reverse.map (·.symbol)) = true := by
  induction string generalizing stack with
  | nil => exact ⟨[], path, Option.some.inj walk, rfl⟩
  | cons s string ih =>
    obtain ⟨target, step, rest⟩ := exists_of_walk?_cons walk
    obtain ⟨item, t, _, here, after, name⟩ := canonical.exists_item_of_transition? step
    have edge : a.transition? (topState stack) t = some target := by
      rw [← transition?_congr (topState stack) name, step]
    have longer : Path g a (⟨t, target⟩ :: stack) :=
      .cons path (Item.next_mem_occurrences (canonical.belongs here).production after) edge
    obtain ⟨more, last, top, same⟩ := ih longer rest
    refine ⟨more ++ [⟨t, target⟩], by simpa using last, by simpa using top, ?_⟩
    rw [List.reverse_append, List.reverse_singleton, List.singleton_append, List.map_cons,
      List.cons_beq_cons, same, Bool.and_true]
    exact Symbol.beq_iff_name_eq.mpr name

/-- A path leads to every state, over the symbols by which the state has been found. -/
theorem exists_path {state : ItemSet} (mem : state ∈ a.states) :
    ∃ stack, Path g a stack ∧ a.states[topState stack]? = some state := by
  have generated := canonical.generated state mem
  clear mem
  induction generated with
  | start => exact ⟨[], .nil, canonical.first⟩
  | @goto state symbol _ next ih =>
    obtain ⟨stack, path, here⟩ := ih
    obtain ⟨item, inside, rest, after⟩ := ItemSet.exists_item_of_mem_nextSymbols next
    have occurs : symbol ∈ g.occurrences :=
      Item.next_mem_occurrences (canonical.belongs ⟨state, here, inside⟩).production after
    obtain ⟨target, edge, _⟩ := canonical.advance ⟨state, here, inside⟩ after
    obtain ⟨state', here', symbol', mem', name, there⟩ := canonical.transition?_spec edge
    obtain rfl := Option.some.inj (here.symm.trans here')
    obtain ⟨other, inside', rest', after'⟩ := ItemSet.exists_item_of_mem_nextSymbols mem'
    obtain rfl := canonical.eq_next ⟨state, here, inside'⟩ after'
      (Grammar.occurrences_subset_symbols occurs) name
    exact ⟨⟨symbol, target⟩ :: stack, .cons path occurs edge, there⟩

/-- No state that can be reached is empty. -/
theorem exists_hasItem_of_path {stack : List Frame} (path : Path g a stack) :
    ∃ item, a.HasItem (topState stack) item := by
  cases path with
  | nil => exact ⟨_, canonical.hasItem_startItem⟩
  | @cons frame below _ _ edge =>
    obtain ⟨item, t, rest, here, after, name⟩ := canonical.exists_item_of_transition? edge
    obtain ⟨target, step, there⟩ := canonical.advance here after
    rw [transition?_congr (topState below) name, step] at edge
    cases edge
    exact ⟨_, there⟩

end Automaton.Canonical

namespace Automaton

/-- The symbols of a path lead from state 0 to the state on top. -/
theorem Path.walk? {g : Grammar} {a : Automaton} {stack : List Frame} (path : Path g a stack) :
    a.walk? 0 (stack.reverse.map (·.symbol)) = some (topState stack) := by
  induction path with
  | nil => rfl
  | @cons frame below _ _ step ih =>
    rw [List.reverse_cons, List.map_append, walk?_append ih]
    exact walk?_cons step

end Automaton

namespace Machine.Canonical

variable {m : Machine} {goal : Symbol} {a : Automaton} (canonical : m.Canonical goal a)
include canonical

/-- Terminals that lead on from the state on top of a path are shifted. -/
theorem replays_walk {stack : List Frame} (path : Automaton.Path m.grammar a stack)
    {string : List Symbol} (known : ∀ s ∈ string, s ∈ m.grammar.terminals) {id : Nat}
    (walk : a.walk? (topState stack) string = some id) (rest : List Symbol) :
    ∃ taken, taken.reverse.map (·.symbol) = string ∧
      m.Replays ⟨stack, string ++ rest⟩ [] ⟨taken ++ stack, rest⟩ ∧
      Automaton.Path m.grammar a (taken ++ stack) := by
  induction string generalizing stack with
  | nil => exact ⟨[], rfl, .refl _, path⟩
  | cons s string ih =>
    obtain ⟨terminal, others⟩ := List.forall_mem_cons.mp known
    obtain ⟨target, edge, later⟩ := Automaton.exists_of_walk?_cons walk
    have action : m.action ⟨stack, s :: (string ++ rest)⟩ = .shift target :=
      canonical.shift_of_transition? edge terminal
    have longer : Automaton.Path m.grammar a (⟨s, target⟩ :: stack) :=
      .cons path (Grammar.mem_terminals.mp terminal).1 edge
    obtain ⟨taken, symbols, replays, last⟩ := ih longer others later
    refine ⟨taken ++ [⟨s, target⟩], by simp [symbols], ?_, by simpa using last⟩
    simpa using (Replays.shift action).trans replays

end Machine.Canonical

end CanonicalLR
