import CanonicalLR.Grammar.Text
import CanonicalLR.ItemSet

/-!
The canonical collection of item sets and the transitions between them. State 0 is the closure of
the augmented start production with the end mark as lookahead. The states are processed in order of
their numbers and each one's next symbols in ascending order; a target that is new gets the next
number. A string of symbols is followed by one transition after the other.

In a state without conflicts the lookahead decides which production is to be reduced, and whether one
is. In any other state the reductions on a lookahead can still be compared by the numbers of their
productions.
-/

set_option autoImplicit false
set_option relaxedAutoImplicit false

namespace CanonicalLR

/-- The ways in which the construction of a parser fails. -/
inductive BuildError where
  /-- The start symbol has not exactly one production of a single symbol. -/
  | notAugmented (start : Symbol)
  /-- A production that is to be reduced has no rule number. -/
  | unindexedProduction (production : Production)
  deriving DecidableEq

def BuildError.message : BuildError → String
  | .notAugmented start =>
    "grammar is not augmented: start symbol " ++ start.render ++
      " must have exactly one single-symbol production"
  | .unindexedProduction production =>
    "production `" ++ production.render ++
      "` has no rule number; build the production index first"

/-- States by number, and for each state that has been processed the numbers of its targets. -/
structure Automaton where
  states : List ItemSet
  transitions : List (SymbolMap Nat)
  deriving BEq, DecidableEq

namespace Automaton

/-- The states with one more set, unless it is among them, and the number of that set. -/
def number (states : List ItemSet) (set : ItemSet) : List ItemSet × Nat :=
  match states.findIdx? (· == set) with
  | some id => (states, id)
  | none => (states ++ [set], states.length)

/-- Adds the target of a state on a symbol to the states and the transition to the edges. -/
def follow (g : Grammar) (state : ItemSet) (found : List ItemSet × SymbolMap Nat)
    (symbol : Symbol) : List ItemSet × SymbolMap Nat :=
  let (states, id) := number found.1 (state.goto g symbol)
  (states, found.2.set symbol id)

/-- Processes states that have no transitions yet, in order, until there are none or `limit` have
been processed. -/
def explore (g : Grammar) : Nat → Automaton → Automaton
  | 0, a => a
  | limit + 1, a =>
    match a.states[a.transitions.length]? with
    | none => a
    | some state =>
      let (states, edges) := state.nextSymbols.toList.foldl (follow g state) (a.states, .empty)
      explore g limit ⟨states, a.transitions ++ [edges]⟩

/-- A number that the items with productions of the grammar cannot exceed. There is one dot more
than symbols in a right-hand side, and the lookahead is a predicted one or the end mark. -/
def itemLimit (g : Grammar) : Nat :=
  (g.productions.size + g.occurrences.length) * (ItemSet.lookaheadLimit g + 1)

/-- State 0: the closure of `[S' -> · S, $]`. -/
def startState (g : Grammar) (rhs : List Symbol) : ItemSet :=
  ItemSet.closure g (.singleton (.initial g.start rhs .endMark))

/-- The automaton of an augmented grammar. There are no more states than sets of items. -/
def ofGrammar (g : Grammar) : Except BuildError Automaton :=
  match g.isAugmented, g.alternatives g.start with
  | true, rhs :: _ => .ok (explore g (Nat.pow 2 (itemLimit g)) ⟨[startState g rhs], []⟩)
  | _, _ => .error (.notAugmented g.start)

def stateCount (a : Automaton) : Nat := a.states.length

def state? (a : Automaton) (id : Nat) : Option ItemSet := a.states[id]?

def transition? (a : Automaton) (source : Nat) (symbol : Symbol) : Option Nat :=
  match a.transitions[source]? with
  | none => none
  | some edges => edges.find? symbol

/-- The state to which a string of symbols leads from a state, by one transition after the other. -/
def walk? (a : Automaton) (source : Nat) : List Symbol → Option Nat
  | [] => some source
  | s :: string =>
    match a.transition? source s with
    | none => none
    | some target => a.walk? target string

variable {a : Automaton}

theorem walk?_cons {source target : Nat} {s : Symbol} {string : List Symbol}
    (step : a.transition? source s = some target) :
    a.walk? source (s :: string) = a.walk? target string := by
  simp only [walk?, step]

theorem exists_of_walk?_cons {source id : Nat} {s : Symbol} {string : List Symbol}
    (h : a.walk? source (s :: string) = some id) :
    ∃ target, a.transition? source s = some target ∧ a.walk? target string = some id := by
  cases step : a.transition? source s with
  | none => simp [walk?, step] at h
  | some target => exact ⟨target, rfl, (walk?_cons step).symm.trans h⟩

theorem walk?_append {source middle : Nat} {front : List Symbol}
    (first : a.walk? source front = some middle) (back : List Symbol) :
    a.walk? source (front ++ back) = a.walk? middle back := by
  induction front generalizing source with
  | nil =>
    cases first
    rfl
  | cons s front ih =>
    obtain ⟨target, step, rest⟩ := exists_of_walk?_cons first
    rw [List.cons_append, walk?_cons step]
    exact ih rest

/-- With more transitions a string still leads where it did. -/
theorem walk?_mono {b : Automaton}
    (more : ∀ i s t, a.transition? i s = some t → b.transition? i s = some t) {source id : Nat}
    {string : List Symbol} (h : a.walk? source string = some id) :
    b.walk? source string = some id := by
  induction string generalizing source with
  | nil => exact h
  | cons s string ih =>
    obtain ⟨target, step, rest⟩ := exists_of_walk?_cons h
    rw [walk?_cons (more source s target step)]
    exact ih rest

end Automaton

/-- No two different complete items of a state have the same lookahead. -/
def ItemSet.OneReductionEach (state : ItemSet) : Prop :=
  ∀ a ∈ state.toList, ∀ b ∈ state.toList,
    a.isComplete → b.isComplete → a.lookahead == b.lookahead → a = b

/-- No complete item of a state has a lookahead on which the state has a transition. -/
def ItemSet.ReducesOrShifts (state : ItemSet) (edges : SymbolMap Nat) : Prop :=
  ∀ a ∈ state.toList, a.isComplete → edges.find? a.lookahead = none

/-- Of the complete items of a state that have a certain lookahead, the one whose production has the
greatest rule number. -/
structure ItemSet.IsGreatestReduction (g : Grammar) (state : ItemSet) (s : Symbol) (item : Item)
    (rule : Nat) : Prop where
  mem : item ∈ state
  complete : item.isComplete = true
  lookahead : item.lookahead = s
  number : g.ruleNumber? item.production = some rule
  greatest : ∀ other ∈ state, other.isComplete = true → other.lookahead = s →
    ∃ n ≤ rule, g.ruleNumber? other.production = some n

/-- No state has two reductions on one lookahead, or a reduction and a transition. -/
def Automaton.ConflictFree (a : Automaton) : Prop :=
  ∀ entry ∈ a.states.zip a.transitions,
    entry.1.OneReductionEach ∧ ItemSet.ReducesOrShifts entry.1 entry.2

instance (state : ItemSet) : Decidable state.OneReductionEach := by
  unfold ItemSet.OneReductionEach
  infer_instance

instance (state : ItemSet) (edges : SymbolMap Nat) : Decidable (state.ReducesOrShifts edges) := by
  unfold ItemSet.ReducesOrShifts
  infer_instance

instance (a : Automaton) : Decidable a.ConflictFree := by
  unfold Automaton.ConflictFree
  infer_instance

end CanonicalLR
