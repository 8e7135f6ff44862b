import CanonicalLR.Proofs.Automaton.Collection

/-!
The items of numbered states, in the automaton of an augmented grammar in which every name has one
kind. A transition takes items along (`HasItem.advance`), an item with symbols before its dot came
along one (`HasItem.retreat`), and one with no symbol before it is predicted in its own state, but for
the start item in state 0 (`HasItem.origin`). No transition leads to state 0.
-/

set_option autoImplicit false
set_option relaxedAutoImplicit false

namespace CanonicalLR.Automaton

/-- The automaton of a grammar with one kind for every name, whose start symbol has `goal` as its only
alternative, and whose FIRST sets hold terminals. -/
structure Canonical (g : Grammar) (goal : Symbol) (a : Automaton) : Prop
    extends IsCollection g (startState g [goal]) a where
  lhs : g.LeftHandSidesNonTerminal
  kinds : g.OneKindPerName
  holds : g.firstTable.HoldsTerminals
  augmented : g.alternatives g.start = [[goal]]

def startItem (g : Grammar) (goal : Symbol) : Item := .initial g.start [goal] .endMark

/-- The state with a number holds an item. -/
def HasItem (a : Automaton) (id : Nat) (item : Item) : Prop :=
  ∃ state, a.states[id]? = some state ∧ item ∈ state

variable {g : Grammar} {goal : Symbol} {a : Automaton}

theorem transition?_congr (source : Nat) {s t : Symbol} (name : s.name = t.name) :
    a.transition? source s = a.transition? source t := by
  unfold transition?
  cases a.transitions[source]? with
  | none => rfl
  | some edges => exact SymbolMap.find?_congr edges name

namespace Canonical

variable (canonical : a.Canonical g goal)
include canonical

theorem belongs_startItem : (startItem g goal).Belongs g where
  production := (Grammar.mem_alternatives_iff canonical.kinds Grammar.start_mem_symbols).mp
    (by simp [startItem, Item.initial, Item.rhs, canonical.augmented])
  lookahead := rfl

private theorem belongs_of_mem_singleton :
    ∀ item ∈ (OrderedSet.singleton (startItem g goal) : ItemSet), item.Belongs g := by
  intro item mem
  rw [OrderedSet.mem_singleton.mp mem]
  exact canonical.belongs_startItem

private theorem belongs_of_generated {state : ItemSet}
    (generated : Generated g (startState g [goal]) state) : ∀ item ∈ state, item.Belongs g := by
  induction generated with
  | start =>
    exact ItemSet.belongs_closure canonical.kinds canonical.holds canonical.belongs_of_mem_singleton
  | goto _ _ ih => exact ItemSet.belongs_goto canonical.kinds canonical.holds ih _

private theorem belongs_of_state {id : Nat} {state : ItemSet} (h : a.states[id]? = some state) :
    ∀ item ∈ state, item.Belongs g :=
  canonical.belongs_of_generated (canonical.generated state (List.mem_of_getElem? h))

theorem belongs {id : Nat} {item : Item} (h : a.HasItem id item) : item.Belongs g := by
  obtain ⟨state, here, mem⟩ := h
  exact canonical.belongs_of_state here item mem

/-- A symbol of the grammar that has the name of a symbol after a dot is this symbol. -/
theorem eq_next {id : Nat} {item : Item} (here : a.HasItem id item) {t : Symbol}
    {rest : List Symbol} (after : item.after = t :: rest) {s : Symbol} (mem : s ∈ g.symbols)
    (name : s.name = t.name) : s = t :=
  canonical.kinds _ mem _ (Grammar.occurrences_subset_symbols
    (Item.next_mem_occurrences (canonical.belongs here).production after)) name

/-- A state is the closure of something, so that it holds what its items predict. -/
theorem closed {id : Nat} {item q : Item} (h : a.HasItem id item)
    (predicted : q ∈ item.predictions g) : a.HasItem id q := by
  obtain ⟨state, here, mem⟩ := h
  refine ⟨state, here, ?_⟩
  cases canonical.generated state (List.mem_of_getElem? here) with
  | start =>
    exact ItemSet.mem_closure_of_predictions canonical.kinds canonical.holds
      canonical.belongs_of_mem_singleton mem predicted
  | goto generated _ =>
    refine ItemSet.mem_closure_of_predictions canonical.kinds canonical.holds
      (fun next moved => ?_) mem predicted
    obtain ⟨item, inside, advanced⟩ := ItemSet.mem_advanceOver moved
    exact (canonical.belongs_of_generated generated item inside).advanceOver advanced

theorem hasItem_startItem : a.HasItem 0 (startItem g goal) :=
  ⟨_, canonical.first, ItemSet.mem_closure_of_mem (OrderedSet.mem_singleton.mpr rfl)⟩

private theorem exists_edges {id : Nat} {state : ItemSet} (h : a.states[id]? = some state) :
    ∃ edges, a.transitions[id]? = some edges ∧
      Edges g a.states state state.nextSymbols.toList edges := by
  have bound := (List.getElem?_eq_some_iff.mp h).1
  rw [← canonical.complete] at bound
  exact ⟨_, List.getElem?_eq_getElem bound,
    canonical.edges id state _ h (List.getElem?_eq_getElem bound)⟩

omit canonical in
private theorem transition?_eq {id : Nat} {edges : SymbolMap Nat}
    (h : a.transitions[id]? = some edges) (s : Symbol) :
    a.transition? id s = edges.find? s := by
  simp [transition?, h]

/-- A transition is on a symbol after a dot, up to its kind, and leads to the state past it. -/
theorem transition?_spec {source target : Nat} {s : Symbol}
    (h : a.transition? source s = some target) : ∃ state, a.states[source]? = some state ∧
      ∃ symbol ∈ state.nextSymbols, s.name = symbol.name ∧
        a.states[target]? = some (state.goto g symbol) := by
  obtain ⟨edges, found⟩ : ∃ edges, a.transitions[source]? = some edges := by
    cases found : a.transitions[source]? with
    | none => simp [transition?, found] at h
    | some edges => exact ⟨edges, rfl⟩
  have bound := (List.getElem?_eq_some_iff.mp found).1
  rw [canonical.complete] at bound
  have here : a.states[source]? = some a.states[source] := List.getElem?_eq_getElem bound
  refine ⟨_, here, ?_⟩
  rw [transition?_eq found] at h
  obtain ⟨symbol, mem, name, next, there, same⟩ :=
    (canonical.edges source _ edges here found).target s target h
  refine ⟨symbol, mem, name, ?_⟩
  have inside := canonical.belongs_of_state here
  rw [there, OrderedSet.eq_of_beq (Item.distinguishes_belongs canonical.kinds)
    (canonical.belongs_of_state there)
    (ItemSet.belongs_goto canonical.kinds canonical.holds inside symbol) same]

/-- Over the symbol after a dot there is a transition, and it takes the item along. -/
theorem advance {id : Nat} {item : Item} (h : a.HasItem id item) {s : Symbol} {rest : List Symbol}
    (after : item.after = s :: rest) : ∃ target, a.transition? id s = some target ∧
      a.HasItem target ⟨item.lhs, item.before ++ [s], rest, item.lookahead⟩ := by
  obtain ⟨state, here, mem⟩ := h
  obtain ⟨edges, found, spec⟩ := canonical.exists_edges here
  have next : state.nextSymbols.contains s = true :=
    ItemSet.contains_nextSymbols.mpr ⟨item, mem, s, rest, after, rfl⟩
  obtain ⟨symbol, listed, same⟩ := OrderedSet.contains_iff.mp next
  obtain ⟨target, edge⟩ := spec.covered symbol listed
  rw [← SymbolMap.find?_congr edges (Symbol.compare_eq_iff_name_eq.mp same)] at edge
  have step : a.transition? id s = some target := by rw [transition?_eq found, edge]
  refine ⟨target, step, ?_⟩
  obtain ⟨state', here', symbol', mem', name', there⟩ := canonical.transition?_spec step
  obtain rfl := Option.some.inj (here.symm.trans here')
  have inside := canonical.belongs_of_state here
  have equal : s = symbol' := by
    obtain ⟨other, hother, rest', after'⟩ := ItemSet.exists_item_of_mem_nextSymbols mem'
    exact canonical.eq_next ⟨state, here, hother⟩ after' (Grammar.occurrences_subset_symbols
      (Item.next_mem_occurrences (inside item mem).production after)) name'
  subst equal
  exact ⟨_, there, ItemSet.mem_goto_of_mem canonical.kinds inside mem after⟩

/-- What holds of the start item, and is kept by predictions, holds of the items of state 0. -/
theorem hasItem_zero_induction {Q : Item → Prop} (start : Q (startItem g goal))
    (keep : ∀ item, item.Belongs g → Q item → ∀ q ∈ item.predictions g, Q q) {item : Item}
    (h : a.HasItem 0 item) : Q item := by
  obtain ⟨state, here, mem⟩ := h
  rw [canonical.first] at here
  obtain rfl := Option.some.inj here
  have both : item.Belongs g ∧ Q item := by
    refine ItemSet.closure_induction (Q := fun item => item.Belongs g ∧ Q item) (fun item only => ?_)
      (fun item before q predicted => ⟨before.1.predictions canonical.kinds canonical.holds predicted,
        keep item before.1 before.2 q predicted⟩) item mem
    rw [OrderedSet.mem_singleton.mp only]
    exact ⟨canonical.belongs_startItem, start⟩
  exact both.2

/-- What holds of the items that come over a transition, and is kept by predictions, holds of the
items of its target. -/
theorem hasItem_target_induction {source target : Nat} {s : Symbol}
    (edge : a.transition? source s = some target) {Q : Item → Prop}
    (moved : ∀ item t rest, a.HasItem source item → item.after = t :: rest → s.name = t.name →
      Q ⟨item.lhs, item.before ++ [t], rest, item.lookahead⟩)
    (keep : ∀ item, item.Belongs g → Q item → ∀ q ∈ item.predictions g, Q q) {item : Item}
    (h : a.HasItem target item) : Q item := by
  obtain ⟨state, here, symbol, _, name, found⟩ := canonical.transition?_spec edge
  obtain ⟨next, there, mem⟩ := h
  obtain rfl := Option.some.inj (found.symm.trans there)
  have both : item.Belongs g ∧ Q item := by
    refine ItemSet.closure_induction (Q := fun item => item.Belongs g ∧ Q item)
      (fun item advanced => ?_)
      (fun item before q predicted => ⟨before.1.predictions canonical.kinds canonical.holds predicted,
        keep item before.1 before.2 q predicted⟩) item mem
    obtain ⟨other, inside, passed⟩ := ItemSet.mem_advanceOver advanced
    have belongs := (canonical.belongs_of_state here other inside).advanceOver passed
    obtain ⟨t, rest, after, name', rfl⟩ := Item.advanceOver?_eq_some.mp passed
    exact ⟨belongs, moved other t rest ⟨state, here, inside⟩ after (name.trans name'.symm)⟩
  exact both.2

/-- What holds of the start item, and is kept by predictions and by moving the dot, holds of every
item. -/
theorem hasItem_induction {Q : Item → Prop} (start : Q (startItem g goal))
    (moved : ∀ (item : Item) s rest, Q item → item.after = s :: rest →
      Q ⟨item.lhs, item.before ++ [s], rest, item.lookahead⟩)
    (keep : ∀ item : Item, item.Belongs g → Q item → ∀ q ∈ item.predictions g, Q q) {id : Nat}
    {item : Item} (h : a.HasItem id item) : Q item := by
  have closed : ∀ item : Item, item.Belongs g ∧ Q item → ∀ q ∈ item.predictions g,
      q.Belongs g ∧ Q q := fun item before q predicted =>
    ⟨before.1.predictions canonical.kinds canonical.holds predicted,
      keep item before.1 before.2 q predicted⟩
  have within : ∀ state, Generated g (startState g [goal]) state → ∀ item ∈ state,
      item.Belongs g ∧ Q item := by
    intro state generated
    induction generated with
    | start =>
      refine ItemSet.closure_induction (fun item only => ?_) closed
      rw [OrderedSet.mem_singleton.mp only]
      exact ⟨canonical.belongs_startItem, start⟩
    | goto _ _ ih =>
      refine ItemSet.closure_induction (fun item advanced => ?_) closed
      obtain ⟨other, here, passed⟩ := ItemSet.mem_advanceOver advanced
      obtain ⟨belongs, before⟩ := ih other here
      refine ⟨belongs.advanceOver passed, ?_⟩
      obtain ⟨s, rest, after, _, rfl⟩ := Item.advanceOver?_eq_some.mp passed
      exact moved other s rest before after
  obtain ⟨state, here, mem⟩ := h
  exact (within state (canonical.generated state (List.mem_of_getElem? here)) item mem).2

theorem before_eq_nil_of_start {item : Item} (h : a.HasItem 0 item) : item.before = [] :=
  canonical.hasItem_zero_induction (Q := fun item => item.before = []) rfl
    (fun _ _ _ _ => Item.before_of_mem_predictions) h

theorem exists_item_of_transition? {source target : Nat} {s : Symbol}
    (h : a.transition? source s = some target) : ∃ item t rest, a.HasItem source item ∧
      item.after = t :: rest ∧ s.name = t.name := by
  obtain ⟨state, here, symbol, mem, name, _⟩ := canonical.transition?_spec h
  obtain ⟨item, inside, rest, after⟩ := ItemSet.exists_item_of_mem_nextSymbols mem
  exact ⟨item, symbol, rest, ⟨state, here, inside⟩, after, name⟩

/-- A symbol of the grammar with a transition comes next in an item. -/
theorem exists_next_of_transition? {source target : Nat} {s : Symbol}
    (h : a.transition? source s = some target) (mem : s ∈ g.symbols) :
    ∃ item rest, a.HasItem source item ∧ item.after = s :: rest := by
  obtain ⟨item, t, rest, here, after, name⟩ := canonical.exists_item_of_transition? h
  obtain rfl := canonical.eq_next here after mem name
  exact ⟨item, rest, here, after⟩

theorem mem_occurrences_of_transition? {source target : Nat} {s : Symbol}
    (h : a.transition? source s = some target) (mem : s ∈ g.symbols) : s ∈ g.occurrences := by
  obtain ⟨item, rest, here, after⟩ := canonical.exists_next_of_transition? h mem
  exact Item.next_mem_occurrences (canonical.belongs here).production after

/-- What stands before a dot at the end of a transition has come over it. -/
theorem retreat {source target : Nat} {s : Symbol} (h : a.transition? source s = some target)
    {item : Item} (there : a.HasItem target item) {x : List Symbol} {t : Symbol}
    (before : item.before = x ++ [t]) :
    s.name = t.name ∧ a.HasItem source ⟨item.lhs, x, t :: item.after, item.lookahead⟩ := by
  obtain ⟨state, here, symbol, _, name, found⟩ := canonical.transition?_spec h
  obtain ⟨next, same, mem⟩ := there
  obtain rfl := Option.some.inj (found.symm.trans same)
  rcases ItemSet.advanced_or_predicted_of_mem_goto mem with ⟨other, inside, moved⟩ | ⟨_, _, later⟩
  · obtain ⟨u, rest, after, name', rfl⟩ := Item.advanceOver?_eq_some.mp moved
    obtain ⟨rfl, last⟩ := List.append_inj' before rfl
    obtain rfl := List.head_eq_of_cons_eq last
    refine ⟨name.trans name'.symm, state, here, ?_⟩
    simpa [← after] using inside
  · rw [Item.before_of_mem_predictions later] at before
    simp at before

theorem target_ne_zero {source target : Nat} {s : Symbol}
    (h : a.transition? source s = some target) : target ≠ 0 := by
  rintro rfl
  obtain ⟨item, t, rest, here, after, name⟩ := canonical.exists_item_of_transition? h
  obtain ⟨target', step, there⟩ := canonical.advance here after
  rw [transition?_congr source name, step] at h
  obtain rfl := Option.some.inj h
  have nothing := canonical.before_eq_nil_of_start there
  simp at nothing

private theorem eq_zero_of_startState {id : Nat}
    (h : a.states[id]? = some (startState g [goal])) : id = 0 := by
  by_contra later
  obtain ⟨bound, at_id⟩ := List.getElem?_eq_some_iff.mp h
  obtain ⟨bound', at_zero⟩ := List.getElem?_eq_some_iff.mp canonical.first
  have different := List.pairwise_iff_getElem.mp canonical.distinct 0 id bound' bound (by omega)
  rw [at_id, at_zero, beq_self_eq_true] at different
  cases different

/-- An item without a symbol before its dot is the start item in state 0 or is predicted. -/
theorem origin {id : Nat} {item : Item} (h : a.HasItem id item) (before : item.before = []) :
    (id = 0 ∧ item = startItem g goal) ∨
      ∃ other, a.HasItem id other ∧ item ∈ other.predictions g := by
  obtain ⟨state, here, mem⟩ := h
  cases canonical.generated state (List.mem_of_getElem? here) with
  | start =>
    rcases ItemSet.mem_or_predicted_of_mem_closure mem with only | ⟨other, inside, predicted⟩
    · exact .inl ⟨canonical.eq_zero_of_startState here, OrderedSet.mem_singleton.mp only⟩
    · exact .inr ⟨other, ⟨_, here, inside⟩, predicted⟩
  | goto _ _ =>
    rcases ItemSet.advanced_or_predicted_of_mem_goto mem with ⟨other, _, moved⟩ | ⟨other, inside, later⟩
    · obtain ⟨s, rest, _, _, rfl⟩ := Item.advanceOver?_eq_some.mp moved
      simp at before
    · exact .inr ⟨other, ⟨_, here, inside⟩, later⟩

/-- A state that holds an item with nothing before its dot has a transition over its left-hand side,
unless it is the start symbol's. -/
theorem exists_transition?_of_initial {id : Nat} {item : Item} (h : a.HasItem id item)
    (before : item.before = []) (other : item.lhs ≠ g.start) :
    ∃ target, a.transition? id item.lhs = some target := by
  rcases canonical.origin h before with ⟨_, rfl⟩ | ⟨predictor, here, predicted⟩
  · exact absurd rfl other
  · obtain ⟨B, rest, after, _, _, _, _, _, rfl⟩ := Item.mem_predictions.mp predicted
    obtain ⟨target, step, _⟩ := canonical.advance here after
    exact ⟨target, step⟩

/-- The start symbol has no production but the augmented one. -/
theorem rhs_of_start {production : Production} (mem : production ∈ g.productions)
    (start : production.lhs = g.start) : production.rhs = [goal] := by
  have listed : production.rhs ∈ g.alternatives g.start := by
    refine (Grammar.mem_alternatives_iff canonical.kinds Grammar.start_mem_symbols).mpr ?_
    rw [← start]
    exact mem
  rw [canonical.augmented] at listed
  exact List.mem_singleton.mp listed

/-- A complete item of the start symbol is that of the augmented production. -/
theorem lhs_eq_start_iff {item : Item} (belongs : item.Belongs g) :
    item.lhs = g.start ↔ item.production = ⟨g.start, [goal]⟩ := by
  constructor
  · intro start
    have body : item.rhs = [goal] := canonical.rhs_of_start belongs.production start
    rw [Item.production, start, body]
  · exact fun same => congrArg Production.lhs same

section FreshStart

variable (fresh : g.start ∉ g.occurrences)
include fresh

omit canonical in
private theorem lhs_ne_start_of_mem_predictions {item q : Item} (belongs : item.Belongs g)
    (predicted : q ∈ item.predictions g) : q.lhs ≠ g.start := by
  obtain ⟨B, rest, after, _, _, _, _, _, rfl⟩ := Item.mem_predictions.mp predicted
  rintro rfl
  exact fresh (Item.next_mem_occurrences belongs.production after)

/-- Where the start symbol stands in no right-hand side, its items have the end mark as lookahead. -/
theorem lookahead_of_start {id : Nat} {item : Item} (h : a.HasItem id item)
    (start : item.lhs = g.start) : item.lookahead = .endMark := by
  refine canonical.hasItem_induction
    (Q := fun item => item.lhs = g.start → item.lookahead = .endMark) (fun _ => rfl)
    (fun _ _ _ before _ => before) (fun item belongs _ q predicted same => ?_) h start
  exact absurd same (lhs_ne_start_of_mem_predictions fresh belongs predicted)

/-- With nothing before its dot, the start symbol's item is in state 0 only. -/
theorem eq_zero_of_start {id : Nat} {item : Item} (h : a.HasItem id item) (before : item.before = [])
    (start : item.lhs = g.start) : id = 0 := by
  rcases canonical.origin h before with ⟨zero, _⟩ | ⟨other, here, predicted⟩
  · exact zero
  · exact absurd start
      (lhs_ne_start_of_mem_predictions fresh (canonical.belongs here) predicted)

end FreshStart

end Canonical

end CanonicalLR.Automaton
