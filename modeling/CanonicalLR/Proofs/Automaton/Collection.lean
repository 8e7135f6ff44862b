import CanonicalLR.Automaton
import CanonicalLR.Proofs.ItemSet.Closure
import Mathlib.Data.List.Sublists
import Mathlib.Tactic.Ring

/-!
The canonical collection. While states are processed, every one of them is generated from state 0 by
transitions, no two are the same set, and those that have been processed have a target for each of
their next symbols and for nothing else (`Explored`). There are no more such states than sets of
items, so that in the end all of them have been processed (`isCollection_explore`).
-/

set_option autoImplicit false
set_option relaxedAutoImplicit false

namespace CanonicalLR

namespace Item

/-- Up to the kinds of its symbols, an item has a production of the grammar, and a lookahead that is a
predicted one or the end mark. -/
def Within (g : Grammar) (item : Item) : Prop :=
  (∃ production ∈ g.productions,
    production.lhs.name = item.lhs.name ∧ compare production.rhs item.rhs = .eq) ∧
  ∃ a ∈ ItemSet.lookaheads g ++ [Symbol.endMark], a.name = item.lookahead.name

private theorem Within.predictions {g : Grammar} {item q : Item} (h : q ∈ item.predictions g) :
    q.Within g := by
  obtain ⟨B, rest, _, _, a, ha, rhs, hrhs, rfl⟩ := mem_predictions.mp h
  obtain ⟨production, mem, name, rfl⟩ := Grammar.mem_alternatives.mp hrhs
  exact ⟨⟨production, mem, name, Std.ReflCmp.compare_self⟩,
    a, List.mem_append_left _ (ItemSet.mem_lookaheads_of_mem_ofString ha), rfl⟩

private theorem Within.advanceOver {g : Grammar} {item next : Item} {symbol : Symbol}
    (within : item.Within g) (h : item.advanceOver? symbol = some next) : next.Within g := by
  obtain ⟨s, rest, after, _, rfl⟩ := advanceOver?_eq_some.mp h
  obtain ⟨⟨production, mem, name, body⟩, lookahead⟩ := within
  refine ⟨⟨production, mem, name, ?_⟩, lookahead⟩
  simpa [rhs, after] using body

/-- With the productions numbered, an item within the grammar has a rule. -/
theorem Within.exists_ruleNumber? {g : Grammar} {item : Item} (within : item.Within g)
    (numbered : g.rules = g.productions.toList) :
    ∃ rule, g.ruleNumber? item.production = some rule := by
  obtain ⟨⟨production, mem, name, body⟩, _⟩ := within
  exact Grammar.exists_ruleNumber?_of_compare numbered mem
    (Production.compare_eq_iff.mpr ⟨name, body⟩)

private def ofProduction (g : Grammar) (production : Production) : List Item :=
  (List.range (production.rhs.length + 1)).flatMap fun dot =>
    (ItemSet.lookaheads g ++ [Symbol.endMark]).map fun a =>
      ⟨production.lhs, production.rhs.take dot, production.rhs.drop dot, a⟩

/-- All items of all productions. -/
private def all (g : Grammar) : List Item := g.productions.toList.flatMap (ofProduction g)

private theorem length_ofProduction (g : Grammar) (production : Production) :
    (ofProduction g production).length =
      (production.rhs.length + 1) * (ItemSet.lookaheadLimit g + 1) := by
  simp [ofProduction, List.length_flatMap, ItemSet.length_lookaheads]

private theorem length_all (g : Grammar) : (all g).length = Automaton.itemLimit g := by
  have each : ∀ productions : List Production, (productions.flatMap (ofProduction g)).length =
      (productions.length + (productions.flatMap (·.rhs)).length) *
        (ItemSet.lookaheadLimit g + 1) := by
    intro productions
    induction productions with
    | nil => simp
    | cons production productions ih =>
      simp only [List.flatMap_cons, List.length_append, List.length_cons, length_ofProduction, ih]
      ring
  exact each g.productions.toList

private theorem Within.covered {g : Grammar} {item : Item} (within : item.Within g) :
    ∃ c ∈ all g, compare item c = .eq := by
  obtain ⟨⟨production, mem, name, body⟩, a, ha, lookahead⟩ := within
  have lengths : production.rhs.length = item.before.length + item.after.length := by
    have same := OrderedSet.length_eq_of_beq (Std.LawfulBEqOrd.compare_eq_iff_beq.mp body)
    simpa [rhs] using same
  refine ⟨⟨production.lhs, production.rhs.take item.dot, production.rhs.drop item.dot, a⟩,
    List.mem_flatMap.mpr ⟨production, mem, List.mem_flatMap.mpr ⟨item.dot, ?_, ?_⟩⟩,
    compare_eq_iff.mpr ⟨name.symm, ?_, ?_, lookahead.symm⟩⟩
  · rw [List.mem_range, dot]
    omega
  · exact List.mem_map_of_mem ha
  · rw [rhs, rhs, List.take_append_drop]
    exact Std.OrientedCmp.eq_comm.mp body
  · simp only [dot, List.length_take]
    omega

end Item

namespace Automaton

variable {g : Grammar} {start : ItemSet}

/-- The states that come of one state by transitions on next symbols. -/
inductive Generated (g : Grammar) (start : ItemSet) : ItemSet → Prop
  | start : Generated g start start
  | goto {state : ItemSet} {symbol : Symbol} (generated : Generated g start state)
      (next : symbol ∈ state.nextSymbols) : Generated g start (state.goto g symbol)

private theorem Generated.within {state : ItemSet} (h : Generated g start state)
    (within : ∀ item ∈ start, item.Within g) : ∀ item ∈ state, item.Within g := by
  induction h with
  | start => exact within
  | goto _ _ ih =>
    refine ItemSet.closure_induction (fun next mem => ?_) fun _ _ q => .predictions
    obtain ⟨item, here, advanced⟩ := ItemSet.mem_advanceOver mem
    exact (ih item here).advanceOver advanced

/-- The targets of a state on some of its next symbols, as numbers of states. -/
structure Edges (g : Grammar) (states : List ItemSet) (state : ItemSet) (symbols : List Symbol)
    (edges : SymbolMap Nat) : Prop where
  target : ∀ s (t : Nat), edges.find? s = some t → ∃ symbol ∈ symbols, s.name = symbol.name ∧
    ∃ next, states[t]? = some next ∧ (next == state.goto g symbol) = true
  covered : ∀ symbol ∈ symbols, ∃ t, edges.find? symbol = some t
  keys : ∀ entry ∈ edges.toList, entry.1 ∈ symbols

/-- The states found so far, and the targets of those that have been processed. -/
structure Explored (g : Grammar) (start : ItemSet) (a : Automaton) : Prop where
  first : a.states[0]? = some start
  generated : ∀ state ∈ a.states, Generated g start state
  distinct : a.states.Pairwise fun s t => (s == t) = false
  behind : a.transitions.length ≤ a.states.length
  edges : ∀ (i : Nat) state edges, a.states[i]? = some state → a.transitions[i]? = some edges →
    Edges g a.states state state.nextSymbols.toList edges

theorem Edges.mono {states : List ItemSet} {state : ItemSet} {symbols : List Symbol}
    {edges : SymbolMap Nat} (h : Edges g states state symbols edges) (more : List ItemSet) :
    Edges g (states ++ more) state symbols edges where
  target s t found := by
    obtain ⟨symbol, mem, name, next, here, same⟩ := h.target s t found
    have bound := (List.getElem?_eq_some_iff.mp here).1
    exact ⟨symbol, mem, name, next, by rwa [List.getElem?_append_left bound], same⟩
  covered := h.covered
  keys := h.keys

/-- A set is among the states already, or becomes the last of them. -/
theorem number_cases (states : List ItemSet) (set : ItemSet) :
    (∃ id state, number states set = (states, id) ∧ states[id]? = some state ∧
      (state == set) = true) ∨
    (number states set = (states ++ [set], states.length) ∧
      ∀ state ∈ states, (state == set) = false) := by
  unfold number
  cases found : states.findIdx? (· == set) with
  | some id =>
    obtain ⟨bound, same, _⟩ := List.findIdx?_eq_some_iff_getElem.mp found
    exact .inl ⟨id, states[id], rfl, List.getElem?_eq_getElem bound, same⟩
  | none =>
    refine .inr ⟨rfl, fun state mem => ?_⟩
    simpa using List.findIdx?_eq_none_iff.mp found state mem

/-- The states and the edges of one state while its next symbols are followed. -/
private structure Following (g : Grammar) (start : ItemSet) (before : List ItemSet)
    (state : ItemSet) (symbols : List Symbol) (found : List ItemSet × SymbolMap Nat) : Prop where
  grown : ∃ more, found.1 = before ++ more
  generated : ∀ s ∈ found.1, Generated g start s
  distinct : found.1.Pairwise fun s t => (s == t) = false
  edges : Edges g found.1 state symbols found.2

private theorem Edges.set {states : List ItemSet} {state next : ItemSet} {symbols : List Symbol}
    {edges : SymbolMap Nat} (h : Edges g states state symbols edges) {symbol : Symbol} {id : Nat}
    (here : states[id]? = some next) (same : (next == state.goto g symbol) = true) :
    Edges g states state (symbols ++ [symbol]) (edges.set symbol id) where
  target s t found := by
    rw [SymbolMap.find?_set] at found
    split at found
    · next name =>
      cases found
      exact ⟨symbol, List.mem_append_right _ (List.mem_singleton_self _),
        Symbol.beq_iff_name_eq.mp name, next, here, same⟩
    · obtain ⟨other, mem, rest⟩ := h.target s t found
      exact ⟨other, List.mem_append_left _ mem, rest⟩
  covered s mem := by
    rw [SymbolMap.find?_set]
    split
    · exact ⟨id, rfl⟩
    · next different =>
      rcases List.mem_append.mp mem with mem | mem
      · exact h.covered s mem
      · rw [List.mem_singleton.mp mem] at different
        exact absurd (Symbol.beq_iff_name_eq.mpr rfl) different
  keys entry mem := by
    rcases SymbolMap.key_of_mem_set mem with same | ⟨other, old, same⟩
    · rw [same]
      exact List.mem_append_right _ (List.mem_singleton_self _)
    · rw [same]
      exact List.mem_append_left _ (h.keys other old)

private theorem Following.follow {before : List ItemSet} {state : ItemSet} {symbols : List Symbol}
    {found : List ItemSet × SymbolMap Nat} (h : Following g start before state symbols found)
    {symbol : Symbol} (generated : Generated g start (state.goto g symbol)) :
    Following g start before state (symbols ++ [symbol]) (follow g state found symbol) := by
  unfold Automaton.follow
  rcases number_cases found.1 (state.goto g symbol) with ⟨id, next, eq, here, same⟩ | ⟨eq, fresh⟩
  · rw [eq]
    exact ⟨h.grown, h.generated, h.distinct, h.edges.set here same⟩
  · rw [eq]
    obtain ⟨more, whole⟩ := h.grown
    refine ⟨⟨more ++ [state.goto g symbol], by simp [whole]⟩, ?_, ?_, ?_⟩
    · simp only [List.mem_append, List.mem_singleton]
      rintro s (old | rfl)
      · exact h.generated s old
      · exact generated
    · refine List.pairwise_append.mpr ⟨h.distinct, List.pairwise_singleton _ _, ?_⟩
      intro s mem t last
      rw [List.mem_singleton.mp last]
      exact fresh s mem
    · exact (h.edges.mono [state.goto g symbol]).set (by simp) (beq_self_eq_true _)

private theorem Following.foldl {before : List ItemSet} {state : ItemSet}
    {done symbols : List Symbol} {found : List ItemSet × SymbolMap Nat}
    (h : Following g start before state done found)
    (generated : ∀ symbol ∈ symbols, Generated g start (state.goto g symbol)) :
    Following g start before state (done ++ symbols)
      (symbols.foldl (Automaton.follow g state) found) := by
  induction symbols generalizing done found with
  | nil => simpa using h
  | cons symbol symbols ih =>
    obtain ⟨head, tail⟩ := List.forall_mem_cons.mp generated
    simpa using ih (h.follow head) tail

def process (g : Grammar) (a : Automaton) (state : ItemSet) : Automaton :=
  let found := state.nextSymbols.toList.foldl (follow g state) (a.states, .empty)
  ⟨found.1, a.transitions ++ [found.2]⟩

theorem explore_of_none {a : Automaton} (complete : a.states[a.transitions.length]? = none)
    (limit : Nat) : explore g limit a = a := by
  cases limit with
  | zero => rfl
  | succ limit =>
    rw [explore]
    simp only [complete]

theorem explore_of_pending {a : Automaton} {state : ItemSet}
    (pending : a.states[a.transitions.length]? = some state) (limit : Nat) :
    explore g (limit + 1) a = explore g limit (process g a state) := by
  rw [explore]
  simp only [pending, process]

/-- What processing a state keeps, an exploration keeps. -/
theorem explore_induction {P : Automaton → Prop}
    (keep : ∀ a state, a.states[a.transitions.length]? = some state → P a → P (process g a state))
    {a : Automaton} (h : P a) (limit : Nat) : P (explore g limit a) := by
  induction limit generalizing a with
  | zero => exact h
  | succ limit ih =>
    cases pending : a.states[a.transitions.length]? with
    | none => rwa [explore_of_none pending]
    | some state =>
      rw [explore_of_pending pending]
      exact ih (keep a state pending h)

theorem explore_add (m n : Nat) (a : Automaton) :
    explore g (m + n) a = explore g n (explore g m a) := by
  induction m generalizing a with
  | zero => rw [Nat.zero_add, explore]
  | succ m ih =>
    rw [Nat.succ_add]
    cases pending : a.states[a.transitions.length]? with
    | none => rw [explore_of_none pending, explore_of_none pending, explore_of_none pending]
    | some state => rw [explore_of_pending pending, explore_of_pending pending, ih]

private theorem Explored.process {a : Automaton} (h : Explored g start a) {state : ItemSet}
    (pending : a.states[a.transitions.length]? = some state) :
    Explored g start (process g a state) := by
  have here := h.generated state (List.mem_of_getElem? pending)
  have bound := (List.getElem?_eq_some_iff.mp pending).1
  have initial : Following g start a.states state [] (a.states, .empty) :=
    ⟨⟨[], by simp⟩, h.generated, h.distinct, ⟨nofun, nofun, nofun⟩⟩
  have final : Following g start a.states state ([] ++ state.nextSymbols.toList)
      (state.nextSymbols.toList.foldl (Automaton.follow g state) (a.states, .empty)) :=
    initial.foldl fun symbol next => here.goto next
  obtain ⟨more, whole⟩ := final.grown
  simp only [List.nil_append] at final
  refine ⟨?_, final.generated, final.distinct, ?_, ?_⟩
  · simp only [Automaton.process, whole]
    rw [List.getElem?_append_left (List.getElem?_eq_some_iff.mp h.first).1]
    exact h.first
  · simp only [Automaton.process, whole, List.length_append, List.length_singleton]
    omega
  · intro i other edges stateAt edgesAt
    rcases Nat.lt_trichotomy i a.transitions.length with lt | rfl | gt
    · simp only [Automaton.process, whole] at stateAt edgesAt ⊢
      rw [List.getElem?_append_left (by omega)] at stateAt
      rw [List.getElem?_append_left lt] at edgesAt
      exact (h.edges i other edges stateAt edgesAt).mono more
    · have same : other = state := by
        simp only [Automaton.process, whole] at stateAt
        rw [List.getElem?_append_left bound, pending] at stateAt
        exact (Option.some.inj stateAt).symm
      simp only [Automaton.process, List.getElem?_concat_length] at edgesAt
      rw [same, ← Option.some.inj edgesAt]
      exact final.edges
    · simp only [Automaton.process] at edgesAt
      have past := (List.getElem?_eq_some_iff.mp edgesAt).1
      simp only [List.length_append, List.length_singleton] at past
      omega

private theorem filter_contains_injective {s t : ItemSet} (hs : ∀ item ∈ s, item.Within g)
    (ht : ∀ item ∈ t, item.Within g)
    (same : (Item.all g).filter s.contains = (Item.all g).filter t.contains) :
    (s == t) = true := by
  have contained : ∀ s t : ItemSet, (∀ item ∈ s, item.Within g) →
      (Item.all g).filter s.contains = (Item.all g).filter t.contains →
      ∀ item ∈ s, t.contains item = true := by
    intro s t within same item mem
    obtain ⟨c, hc, equal⟩ := (within item mem).covered
    have inside : c ∈ (Item.all g).filter s.contains := List.mem_filter.mpr
      ⟨hc, OrderedSet.contains_iff.mpr ⟨item, mem, Std.OrientedCmp.eq_comm.mp equal⟩⟩
    rw [same] at inside
    obtain ⟨other, there, equal'⟩ := OrderedSet.contains_iff.mp (List.mem_filter.mp inside).2
    exact OrderedSet.contains_iff.mpr ⟨other, there, Std.TransCmp.eq_trans equal equal'⟩
  exact OrderedSet.beq_of_contains (contained s t hs same) (contained t s ht same.symm)

/-- What the start state holds within the grammar, every state does. -/
theorem Explored.within {a : Automaton} (h : Explored g start a)
    (within : ∀ item ∈ start, item.Within g) : ∀ state ∈ a.states, ∀ item ∈ state, item.Within g :=
  fun state mem => (h.generated state mem).within within

/-- There are no more states than sets of items. -/
private theorem Explored.length_states_le {a : Automaton} (h : Explored g start a)
    (within : ∀ item ∈ start, item.Within g) : a.states.length ≤ Nat.pow 2 (itemLimit g) := by
  have distinct : (a.states.map fun s => (Item.all g).filter s.contains).Nodup := by
    refine List.pairwise_map.mpr (h.distinct.imp_of_mem fun {s t} hs ht different same => ?_)
    rw [filter_contains_injective (h.within within s hs) (h.within within t ht) same] at different
    cases different
  have inside : (a.states.map fun s => (Item.all g).filter s.contains) ⊆
      (Item.all g).sublists := fun l hl => by
    obtain ⟨s, _, rfl⟩ := List.mem_map.mp hl
    exact List.mem_sublists.mpr List.filter_sublist
  have count := (List.subperm_of_subset distinct inside).length_le
  rwa [List.length_map, List.length_sublists, Item.length_all] at count

/-- The collection of states, all of which have been processed. -/
structure IsCollection (g : Grammar) (start : ItemSet) (a : Automaton) : Prop
    extends Explored g start a where
  complete : a.transitions.length = a.states.length

private theorem Explored.isCollection_explore {a : Automaton} (h : Explored g start a)
    (within : ∀ item ∈ start, item.Within g) {limit : Nat}
    (enough : Nat.pow 2 (itemLimit g) ≤ a.transitions.length + limit) :
    IsCollection g start (explore g limit a) := by
  induction limit generalizing a with
  | zero =>
    have bound := h.length_states_le within
    exact ⟨h, Nat.le_antisymm h.behind (bound.trans enough)⟩
  | succ limit ih =>
    cases pending : a.states[a.transitions.length]? with
    | none =>
      rw [explore_of_none pending]
      exact ⟨h, Nat.le_antisymm h.behind (List.getElem?_eq_none_iff.mp pending)⟩
    | some state =>
      rw [explore_of_pending pending]
      refine ih (h.process pending) ?_
      simp only [Automaton.process, List.length_append, List.length_singleton]
      omega

/-- The exploration from a start state ends with all states processed. -/
theorem isCollection_explore (within : ∀ item ∈ start, item.Within g) :
    IsCollection g start (explore g (Nat.pow 2 (itemLimit g)) ⟨[start], []⟩) := by
  refine Explored.isCollection_explore ⟨rfl, ?_, List.pairwise_singleton _ _, Nat.zero_le _,
    fun i _ _ _ edgesAt => ?_⟩ within (by simp)
  · intro state mem
    rw [List.mem_singleton.mp mem]
    exact .start
  · rw [List.getElem?_nil] at edgesAt
    cases edgesAt

theorem within_startState {rhs : List Symbol} (mem : rhs ∈ g.alternatives g.start) :
    ∀ item ∈ startState g rhs, item.Within g := by
  obtain ⟨production, here, name, rfl⟩ := Grammar.mem_alternatives.mp mem
  refine ItemSet.closure_induction (fun item only => ?_) fun _ _ q => .predictions
  rw [OrderedSet.mem_singleton.mp only]
  exact ⟨⟨production, here, name, Std.ReflCmp.compare_self⟩, .endMark,
    List.mem_append_right _ (List.mem_singleton_self _), rfl⟩

theorem isAugmented_of_ofGrammar {a : Automaton} (built : ofGrammar g = .ok a) :
    g.isAugmented = true := by
  unfold ofGrammar at built
  split at built
  · next augmented _ => exact augmented
  · cases built

/-- The automaton of an augmented grammar is what the exploration from its start state comes to, the
collection of the states. -/
theorem exists_ofGrammar (augmented : g.isAugmented = true) : ∃ goal a,
    g.alternatives g.start = [[goal]] ∧ ofGrammar g = .ok a ∧
      explore g (Nat.pow 2 (itemLimit g)) ⟨[startState g [goal]], []⟩ = a ∧
      IsCollection g (startState g [goal]) a ∧
      ∀ state ∈ a.states, ∀ item ∈ state, item.Within g := by
  obtain ⟨goal, alternatives⟩ : ∃ goal, g.alternatives g.start = [[goal]] := by
    unfold Grammar.isAugmented at augmented
    split at augmented
    · next goal alternatives => exact ⟨goal, alternatives⟩
    · cases augmented
  have within : ∀ item ∈ startState g [goal], item.Within g := within_startState (by
    rw [alternatives]
    exact List.mem_singleton_self _)
  have collection := isCollection_explore within
  exact ⟨goal, _, alternatives, by rw [ofGrammar, augmented, alternatives], rfl, collection,
    collection.within within⟩

end Automaton

end CanonicalLR
