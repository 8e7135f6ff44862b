import CanonicalLR.Automaton
import CanonicalLR.Proofs.Automaton.Collection

/-!
The canonical collection and the numbers of its states. The targets that have been found, in the
order in which they were found, have the numbers of the states as their first occurrences: a set that
is among the states repeats a number, and one that is not gets the next number. While a state is
processed this is kept by each of its next symbols (`Numbering.follow`), and from one state to the
next it is kept together with paths to all states (`Numbered.process`).
-/

set_option autoImplicit false
set_option relaxedAutoImplicit false

namespace CanonicalLR.Automaton

/-- The targets of all transitions, by increasing source and then by increasing symbol. -/
def targets (a : Automaton) : List Nat :=
  a.transitions.flatMap fun edges => edges.toList.map Prod.snd

/-- The canonical collection of a grammar, from a start state on. -/
structure CanonicalCollection (g : Grammar) (start : ItemSet) (a : Automaton) : Prop where
  /-- There is an end to the states that have not been processed. -/
  ended : ∃ enough, ∀ limit, enough ≤ limit → explore g limit ⟨[start], []⟩ = a
  first : a.states[0]? = some start
  distinct : a.states.Pairwise fun s t => (s == t) = false
  nonempty : ∀ state ∈ a.states, ∃ item, item ∈ state
  closed : ∀ state ∈ a.states, ∀ item ∈ state, ∀ q ∈ item.predictions g, state.contains q = true
  complete : a.transitions.length = a.states.length
  domain : ∀ (i : Nat) state edges, a.states[i]? = some state → a.transitions[i]? = some edges →
    edges.toList.map Prod.fst = state.nextSymbols.toList
  /-- A transition leads to the state that is the set past its symbol, and to no other. -/
  target : ∀ (i : Nat) state, a.states[i]? = some state → ∀ s t, a.transition? i s = some t ↔
    state.nextSymbols.contains s = true ∧
      ∃ next, a.states[t]? = some next ∧ (next == state.goto g s) = true
  reached : ∀ id < a.states.length, ∃ path, a.walk? 0 path = some id
  /-- With state 0 in front, the first occurrences among the targets are 0, 1, 2 and so on. -/
  order : (0 :: a.targets).eraseDups = List.range a.states.length

section FirstOccurrences

variable {l : List Nat} {n x : Nat}

private theorem mem_iff_lt (order : l.eraseDups = List.range n) : x ∈ l ↔ x < n := by
  rw [← List.mem_eraseDups, order, List.mem_range]

private theorem eraseDups_concat_of_lt (order : l.eraseDups = List.range n) (old : x < n) :
    (l ++ [x]).eraseDups = List.range n := by
  have mem : x ∈ l := (mem_iff_lt order).mpr old
  rw [List.eraseDups_append, order]
  simp [List.removeAll, mem]

private theorem eraseDups_concat_self (order : l.eraseDups = List.range n) :
    (l ++ [n]).eraseDups = List.range (n + 1) := by
  have absent : n ∉ l := fun mem => Nat.lt_irrefl n ((mem_iff_lt order).mp mem)
  rw [List.eraseDups_append, order, List.range_succ]
  simp [List.removeAll, absent, List.eraseDups_cons]

end FirstOccurrences

variable {g : Grammar} {start : ItemSet}

/-- The states and the edges of one state after some of its next symbols; `seen` holds 0 and the
targets found before. -/
private structure Numbering (seen : List Nat) (symbols : List Symbol)
    (found : List ItemSet × SymbolMap Nat) : Prop where
  keys : found.2.toList.map Prod.fst = symbols
  order : (seen ++ found.2.toList.map Prod.snd).eraseDups = List.range found.1.length

private theorem Numbering.follow {seen : List Nat} {symbols : List Symbol}
    {found : List ItemSet × SymbolMap Nat} (h : Numbering seen symbols found) {symbol : Symbol}
    (above : ∀ s ∈ symbols, compare s symbol = .lt) (state : ItemSet) :
    Numbering seen (symbols ++ [symbol]) (follow g state found symbol) := by
  have last : ∀ id : Nat, (found.2.set symbol id).toList = found.2.toList ++ [(symbol, id)] := by
    refine fun id => SymbolMap.toList_set_of_above fun entry mem => above _ ?_
    rw [← h.keys]
    exact List.mem_map_of_mem mem
  have keys : ∀ id : Nat, (found.2.set symbol id).toList.map Prod.fst = symbols ++ [symbol] := by
    intro id
    rw [last, List.map_append, h.keys]
    rfl
  unfold Automaton.follow
  rcases number_cases found.1 (state.goto g symbol) with ⟨id, next, eq, here, _⟩ | ⟨eq, _⟩
  · rw [eq]
    refine ⟨keys id, ?_⟩
    rw [last, List.map_append, ← List.append_assoc]
    exact eraseDups_concat_of_lt h.order (List.getElem?_eq_some_iff.mp here).1
  · rw [eq]
    refine ⟨keys _, ?_⟩
    rw [last, List.map_append, ← List.append_assoc, List.length_append]
    exact eraseDups_concat_self h.order

private theorem Numbering.foldl {seen : List Nat} {done symbols : List Symbol}
    {found : List ItemSet × SymbolMap Nat} (h : Numbering seen done found)
    (ascending : (done ++ symbols).Pairwise fun s t => compare s t = .lt) (state : ItemSet) :
    Numbering seen (done ++ symbols) (symbols.foldl (Automaton.follow g state) found) := by
  induction symbols generalizing done found with
  | nil => simpa using h
  | cons symbol symbols ih =>
    have above : ∀ s ∈ done, compare s symbol = .lt := fun s mem =>
      (List.pairwise_append.mp ascending).2.2 s mem symbol (List.mem_cons_self ..)
    rw [← List.singleton_append, ← List.append_assoc] at ascending ⊢
    exact ih (h.follow above state) ascending

/-- The states found so far can be reached, and are numbered in the order in which they were
found. -/
private structure Numbered (a : Automaton) : Prop where
  reached : ∀ id < a.states.length, ∃ path, a.walk? 0 path = some id
  order : (0 :: a.targets).eraseDups = List.range a.states.length

/-- Processing a state keeps the transitions of those before it. -/
private theorem walk?_process {a : Automaton} (state : ItemSet) {source id : Nat}
    {path : List Symbol} (walk : a.walk? source path = some id) :
    (process g a state).walk? source path = some id := by
  refine walk?_mono (fun i s t edge => ?_) walk
  have processed : i < a.transitions.length := by
    by_contra outside
    rw [transition?, List.getElem?_eq_none (Nat.le_of_not_lt outside)] at edge
    cases edge
  simp only [transition?, process] at edge ⊢
  rwa [List.getElem?_append_left processed]

private theorem Numbered.process {a : Automaton} (h : Numbered a) {state : ItemSet}
    (pending : a.states[a.transitions.length]? = some state) : Numbered (process g a state) := by
  have initial : Numbering (0 :: a.targets) [] (a.states, .empty) :=
    ⟨rfl, by simpa [SymbolMap.empty] using h.order⟩
  have final : Numbering (0 :: a.targets) ([] ++ state.nextSymbols.toList)
      (state.nextSymbols.toList.foldl (follow g state) (a.states, .empty)) :=
    initial.foldl state.nextSymbols.ascending state
  have whole : 0 :: (Automaton.process g a state).targets = 0 :: a.targets ++
      (state.nextSymbols.toList.foldl (follow g state) (a.states, .empty)).2.toList.map
        Prod.snd := by
    simp [targets, Automaton.process]
  have order : (0 :: (Automaton.process g a state).targets).eraseDups =
      List.range (Automaton.process g a state).states.length := by
    rw [whole]
    exact final.order
  refine ⟨fun id bound => ?_, order⟩
  have mem := (mem_iff_lt order).mpr bound
  rw [whole, List.mem_append] at mem
  rcases mem with old | new
  · obtain ⟨path, walk⟩ := h.reached id ((mem_iff_lt h.order).mp old)
    exact ⟨path, walk?_process state walk⟩
  · obtain ⟨⟨s, t⟩, entry, rfl⟩ := List.mem_map.mp new
    obtain ⟨path, walk⟩ := h.reached _ (List.getElem?_eq_some_iff.mp pending).1
    have edge : (Automaton.process g a state).transition? a.transitions.length s = some t := by
      simp only [transition?, Automaton.process, List.getElem?_concat_length]
      exact SymbolMap.find?_of_mem entry
    refine ⟨path ++ [s], ?_⟩
    rw [walk?_append (walk?_process state walk), walk?_cons edge]
    rfl

private theorem numbered_explore (limit : Nat) : Numbered (explore g limit ⟨[start], []⟩) := by
  refine explore_induction (fun a state pending h => h.process pending) ⟨?_, rfl⟩ limit
  intro id bound
  obtain rfl : id = 0 := by simpa using bound
  exact ⟨[], rfl⟩

private theorem Generated.nonempty {state : ItemSet} (h : Generated g start state)
    (inhabited : ∃ item, item ∈ start) : ∃ item, item ∈ state := by
  cases h with
  | start => exact inhabited
  | goto _ next => exact ItemSet.exists_mem_goto next

private theorem Generated.closed {rhs : List Symbol} {state : ItemSet}
    (h : Generated g (startState g rhs) state) {item q : Item} (mem : item ∈ state)
    (predicted : q ∈ item.predictions g) : state.contains q = true := by
  cases h with
  | start => exact ItemSet.contains_closure_of_predictions mem predicted
  | goto _ _ => exact ItemSet.contains_closure_of_predictions mem predicted

namespace IsCollection

variable {a : Automaton} (collection : IsCollection g start a)
include collection

/-- The symbols on the edges of a state are its next symbols. -/
theorem map_fst_edges {i : Nat} {state : ItemSet} {edges : SymbolMap Nat}
    (here : a.states[i]? = some state) (found : a.transitions[i]? = some edges) :
    edges.toList.map Prod.fst = state.nextSymbols.toList := by
  have spec := collection.edges i state edges here found
  let keys : OrderedSet Symbol := ⟨edges.toList.map Prod.fst, List.pairwise_map.mpr edges.ascending⟩
  have same : keys = state.nextSymbols := by
    refine OrderedSet.ext_mem fun s => ⟨fun mem => ?_, fun mem => ?_⟩
    · obtain ⟨entry, inside, rfl⟩ := List.mem_map.mp mem
      exact spec.keys entry inside
    · obtain ⟨t, edge⟩ := spec.covered s mem
      obtain ⟨key, inside, name⟩ := SymbolMap.exists_mem_of_find? edge
      obtain rfl : s = key := OrderedSet.eq_of_compare_eq mem (spec.keys _ inside)
        (Symbol.compare_eq_iff_name_eq.mpr name)
      exact List.mem_map.mpr ⟨_, inside, rfl⟩
  exact congrArg OrderedSet.toList same

/-- A state is no other one's equal. -/
theorem eq_of_beq {t u : Nat} {set next other : ItemSet} (left : a.states[t]? = some next)
    (right : a.states[u]? = some other) (next_eq : (next == set) = true)
    (other_eq : (other == set) = true) : t = u := by
  have same : (next == other) = true := BEq.trans next_eq (BEq.symm other_eq)
  obtain ⟨left_bound, rfl⟩ := List.getElem?_eq_some_iff.mp left
  obtain ⟨right_bound, rfl⟩ := List.getElem?_eq_some_iff.mp right
  have apart := List.pairwise_iff_getElem.mp collection.distinct
  rcases Nat.lt_trichotomy t u with lt | eq | gt
  · rw [apart t u left_bound right_bound lt] at same
    cases same
  · exact eq
  · have back := BEq.symm same
    rw [apart u t right_bound left_bound gt] at back
    cases back

/-- Transitions are those on the next symbols, each to the state past its symbol. -/
theorem transition?_eq_some_iff {i : Nat} {state : ItemSet} (here : a.states[i]? = some state)
    (s : Symbol) (t : Nat) : a.transition? i s = some t ↔ state.nextSymbols.contains s = true ∧
      ∃ next, a.states[t]? = some next ∧ (next == state.goto g s) = true := by
  have bound := (List.getElem?_eq_some_iff.mp here).1
  rw [← collection.complete] at bound
  have found : a.transitions[i]? = some a.transitions[i] := List.getElem?_eq_getElem bound
  have spec := collection.edges i state _ here found
  have lookup : ∀ s, a.transition? i s = a.transitions[i].find? s := fun s => by
    rw [transition?, found]
  constructor
  · intro edge
    rw [lookup] at edge
    obtain ⟨symbol, mem, name, next, there, same⟩ := spec.target s t edge
    refine ⟨OrderedSet.contains_iff.mpr ⟨symbol, mem, Symbol.compare_eq_iff_name_eq.mpr name⟩,
      next, there, ?_⟩
    rwa [ItemSet.goto_congr state name]
  · rintro ⟨listed, next, there, same⟩
    obtain ⟨symbol, mem, equal⟩ := OrderedSet.contains_iff.mp listed
    have name := Symbol.compare_eq_iff_name_eq.mp equal
    obtain ⟨u, edge⟩ := spec.covered symbol mem
    obtain ⟨symbol', _, name', other, at_u, same'⟩ := spec.target symbol u edge
    rw [ItemSet.goto_congr state name] at same
    rw [← ItemSet.goto_congr state name'] at same'
    rw [lookup, SymbolMap.find?_congr _ name, edge, collection.eq_of_beq at_u there same' same]

end IsCollection

/-- The automaton of an augmented grammar is its canonical collection, whatever FIRST sets the grammar
holds. -/
theorem exists_canonicalCollection (augmented : g.isAugmented = true) :
    ∃ X a, g.alternatives g.start = [[X]] ∧ ofGrammar g = .ok a ∧
      a.CanonicalCollection g (ItemSet.closure g (.singleton (.initial g.start [X] .endMark))) := by
  obtain ⟨X, alternatives⟩ : ∃ X, g.alternatives g.start = [[X]] := by
    unfold Grammar.isAugmented at augmented
    split at augmented
    · next X alternatives => exact ⟨X, alternatives⟩
    · cases augmented
  let a := explore g (Nat.pow 2 (itemLimit g)) ⟨[startState g [X]], []⟩
  have built : ofGrammar g = .ok a := by
    rw [ofGrammar, augmented, alternatives]
  have collection : IsCollection g (startState g [X]) a :=
    isCollection_explore (within_startState (by rw [alternatives]; exact List.mem_singleton_self _))
  have numbered : Numbered a := numbered_explore _
  have inhabited : ∃ item, item ∈ startState g [X] :=
    ⟨_, ItemSet.mem_closure_of_mem (OrderedSet.mem_singleton.mpr rfl)⟩
  refine ⟨X, a, alternatives, built, ?_, collection.first, collection.distinct,
    fun state mem => (collection.generated state mem).nonempty inhabited,
    fun state mem item here q => (collection.generated state mem).closed here, collection.complete,
    fun i state edges => collection.map_fst_edges,
    fun i state here => collection.transition?_eq_some_iff here, numbered.reached, numbered.order⟩
  refine ⟨Nat.pow 2 (itemLimit g), fun limit enough => ?_⟩
  obtain ⟨more, rfl⟩ := Nat.exists_eq_add_of_le enough
  have none_left : a.states[a.transitions.length]? = none :=
    List.getElem?_eq_none (Nat.le_of_eq collection.complete.symm)
  exact (explore_add _ more _).trans (explore_of_none none_left more)

/-- Numbers in any depth of brackets. -/
def nesting : Grammar :=
  (((Grammar.ofStart (.nonTerminal "S")).pushAll (.nonTerminal "S") [[.nonTerminal "E"]]).pushAll
    (.nonTerminal "E")
      [[.terminal "(", .nonTerminal "E", .terminal ")"], [.terminal "n"]]).computeFirst

/-- States 4 and 6 are found again from state 4. -/
theorem exists_canonicalCollection_nesting : nesting.isAugmented = true ∧
    ∃ a, ofGrammar nesting = .ok a ∧ a.targets = [1, 2, 3, 4, 5, 6, 4, 7, 6, 8, 9] ∧
      (0 :: a.targets).eraseDups = List.range a.states.length := by
  have augmented : nesting.isAugmented = true := by decide +kernel
  obtain ⟨X, a, _, built, canonical⟩ := exists_canonicalCollection augmented
  have targets : (ofGrammar nesting).toOption.map targets =
      some [1, 2, 3, 4, 5, 6, 4, 7, 6, 8, 9] := by decide +kernel
  rw [built] at targets
  exact ⟨augmented, a, built, Option.some.inj targets, canonical.order⟩

end CanonicalLR.Automaton
