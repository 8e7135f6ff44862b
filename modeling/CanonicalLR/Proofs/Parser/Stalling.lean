import CanonicalLR.Proofs.Grammar.Kinds
import CanonicalLR.Proofs.Parser.Termination

/-!
Which parsers come to a verdict on every input: without conflicts, just those that proceed. If a
left-hand side wraps itself, the machine reduces around the circle for ever. If a state does not serve a
terminal behind a symbol that vanishes, the symbol is still reduced before the terminal; above it only
symbols that vanish can be reduced, until an error drops them all and the machine is where it was.
-/

set_option autoImplicit false
set_option relaxedAutoImplicit false

namespace CanonicalLR.Parser

/-- Above a frame stand only symbols that vanish. -/
def Idles (p : Parser) (frame : Frame) (below : List Frame) (input : List Symbol)
    (c : Configuration) : Prop :=
  ∃ taken, c = ⟨taken ++ frame :: below, input⟩ ∧
    Automaton.Path p.machine.grammar p.automaton (taken ++ frame :: below) ∧
      ∀ f ∈ taken, p.machine.grammar.Derives [f.symbol] []

namespace Canonical

variable {g : Grammar} {p : Parser} (canonical : p.Canonical g)
include canonical

/-- Where an item stands with its dot at the start, those of all the productions of its left-hand side
do. -/
private theorem hasItem_of_initial {id : Nat} {s b : Symbol} {rhs : List Symbol}
    (here : p.automaton.HasItem id (.initial s rhs b)) {production : Production}
    (mem : production ∈ p.machine.grammar.productions) (lhs : production.lhs = s) :
    p.automaton.HasItem id (.initial s production.rhs b) := by
  subst lhs
  rcases canonical.machine.origin here rfl with ⟨_, start⟩ | ⟨outer, there, predicted⟩
  · have same : production.rhs = rhs := by
      rw [canonical.machine.rhs_of_start mem (congrArg Item.lhs start)]
      exact (congrArg Item.after start).symm
    rwa [same]
  · obtain ⟨other, _, rest, a, after, first, same⟩ :=
      canonical.exists_production_of_mem_predictions (canonical.machine.belongs there).production
        predicted
    have lhs : production.lhs = other.lhs := congrArg Item.lhs same
    have mark : b = a := congrArg Item.lookahead same
    rw [← lhs] at after
    rw [mark]
    exact canonical.machine.hasItem_of_mem_ofString there mem after first

/-- Where no symbol of the grammar vanishes or wraps itself, the parser proceeds. -/
private theorem proceeds_of_plain
    (plain : ∀ s ∈ g.symbols, ¬ g.Derives [s] [] ∧ ¬ Relation.TransGen g.Wraps s s) :
    p.Proceeds where
  serves state mem item inside s rest after vanishes := by
    obtain ⟨id, _, found⟩ := List.mem_iff_getElem.mp mem
    have belongs := canonical.machine.belongs
      ⟨state, List.getElem?_eq_some_iff.mpr ⟨_, found⟩, inside⟩
    have known := canonical.mem_symbols (Item.next_mem_occurrences belongs.production after)
    rw [canonical.prepared] at vanishes
    exact absurd (vanishes.of_prepare canonical.named (List.forall_mem_singleton.mpr known))
      (plain s known).1
  acyclic state mem item inside cycle := by
    obtain ⟨u, _, production, known, _, rest, body, _⟩ := Relation.TransGen.tail'_iff.mp cycle
    have occurs : item.lhs ∈ p.machine.grammar.occurrences :=
      Grammar.mem_occurrences.mpr ⟨production, known, by simp [body]⟩
    have known := canonical.mem_symbols occurs
    have chain : ∀ t, Relation.TransGen p.grammar.Wraps item.lhs t →
        Relation.TransGen g.Wraps item.lhs t ∧ t ∈ g.symbols := by
      intro t chain
      rw [canonical.prepared] at chain
      induction chain with
      | single wraps =>
        obtain ⟨step, mem⟩ := wraps.of_prepare canonical.named known
        exact ⟨.single step, mem⟩
      | tail _ wraps ih =>
        obtain ⟨step, mem⟩ := wraps.of_prepare canonical.named ih.2
        exact ⟨ih.1.tail step, mem⟩
    exact (plain _ known).2 (chain _ cycle).1

variable (avoids : g.AvoidsEndMark)
include avoids

/-- What a left-hand side wraps, in one or several steps, is predicted with its lookaheads. -/
private theorem exists_initial_of_wraps {id : Nat} {s t b : Symbol} {rhs : List Symbol}
    (here : p.automaton.HasItem id (.initial s rhs b))
    (chain : Relation.ReflTransGen p.machine.grammar.Wraps s t)
    (mem : ∃ production ∈ p.machine.grammar.productions, production.lhs = t) :
    ∃ rhs, p.automaton.HasItem id (.initial t rhs b) := by
  induction chain with
  | refl => exact ⟨rhs, here⟩
  | @tail u t _ wraps ih =>
    obtain ⟨outer, known, lhs, rest, body, vanishes⟩ := wraps
    obtain ⟨inner, mem, rfl⟩ := mem
    obtain ⟨rhs', there⟩ := ih ⟨outer, known, lhs⟩
    have whole := canonical.hasItem_of_initial there known lhs
    have first : b ∈ p.machine.grammar.firstTable.ofString (rest ++ [b]) :=
      canonical.mem_ofString_of_derives avoids (vanishes.concat .refl)
        (canonical.mem_ofString_cons (canonical.isLookahead_of_hasItem avoids there) [])
    exact ⟨_, canonical.machine.hasItem_of_mem_ofString whole mem body first⟩

variable (free : p.automaton.ConflictFree)

section Circle

include free

/-- Behind a stack a symbol is replaced by one that wraps it. -/
private theorem exists_steps_of_wraps {stack : List Frame}
    (path : Automaton.Path p.machine.grammar p.automaton stack) {s t : Symbol}
    {rhs input : List Symbol}
    (here : p.automaton.HasItem (topState stack) (.initial s rhs (Item.lookaheadOf input)))
    (other : s ≠ p.machine.grammar.start) (wraps : p.machine.grammar.Wraps s t) {target : Nat}
    (edge : p.automaton.transition? (topState stack) t = some target) :
    ∃ target' rows, p.automaton.transition? (topState stack) s = some target' ∧ rows ≠ [] ∧
      p.machine.Steps ⟨⟨t, target⟩ :: stack, input⟩ rows ⟨⟨s, target'⟩ :: stack, input⟩ := by
  obtain ⟨production, mem, lhs, rest, body, vanishes⟩ := wraps
  have known := canonical.isLookahead_of_hasItem avoids here
  have whole := canonical.hasItem_of_initial here mem lhs
  rw [body] at whole
  obtain ⟨target', same, moved⟩ := canonical.machine.advance whole rfl
  obtain rfl := Option.some.inj (edge.symm.trans same)
  have longer : Automaton.Path p.machine.grammar p.automaton (⟨t, target⟩ :: stack) :=
    .cons path (Item.next_mem_occurrences (canonical.machine.belongs whole).production rfl) edge
  rcases canonical.reduces_of_vanishes avoids free longer moved vanishes known with
    ⟨start, _⟩ | ⟨popped, below, target', rows, split, length, _, goto, nonempty, steps⟩
  · exact absurd start other
  · obtain ⟨top, rfl⟩ := List.length_eq_one_iff.mp length
    obtain ⟨rfl, rfl⟩ := List.cons_eq_cons.mp split
    exact ⟨target', rows, goto, nonempty, steps⟩

variable (ends : ∀ input, ∃ limit trace, p.parse limit input = some (.ok trace))
include ends

/-- Where every run ends, no left-hand side wraps itself. -/
private theorem acyclic_of_ends {state : ItemSet} (mem : state ∈ p.automaton.states) {item : Item}
    (inside : item ∈ state) :
    ¬ Relation.TransGen p.machine.grammar.Wraps item.lhs item.lhs := by
  have different {s : Symbol} (cycle : Relation.TransGen p.machine.grammar.Wraps s s) :
      s ≠ p.machine.grammar.start := by
    rintro rfl
    obtain ⟨u, _, production, known, _, rest, body, _⟩ := Relation.TransGen.tail'_iff.mp cycle
    exact canonical.start_not_mem_occurrences
      (Grammar.mem_occurrences.mpr ⟨production, known, by simp [body]⟩)
  intro cycle
  obtain ⟨stack, path, found⟩ := canonical.machine.exists_path mem
  obtain ⟨lhs, before, after, b⟩ := item
  obtain ⟨popped, below, rfl, _, initial⟩ := path.uncover canonical.machine.toCanonical
    ⟨state, found, inside⟩
  have under := path.of_append
  obtain ⟨target, edge⟩ :=
    canonical.machine.exists_transition?_of_initial initial rfl (different cycle)
  obtain ⟨rest, halts⟩ := canonical.machine.exists_halts_of_ends ends
    (canonical.machine.path_cons under initial edge) b
  -- the machine comes from one symbol of the circle behind the stack to the one before it
  refine Machine.not_halts (P := fun c => ∃ s rhs target,
    Relation.TransGen p.machine.grammar.Wraps s s ∧
      p.automaton.HasItem (topState below) (.initial s rhs b) ∧
      p.automaton.transition? (topState below) s = some target ∧
      c = ⟨⟨s, target⟩ :: below, b :: rest⟩)
    ?_ ⟨lhs, _, target, cycle, initial, edge, rfl⟩ halts
  rintro _ ⟨s, rhs, target, cycle, here, edge, rfl⟩
  obtain ⟨u, chain, wraps⟩ := Relation.TransGen.tail'_iff.mp cycle
  obtain ⟨production, known, lhs, _⟩ := id wraps
  obtain ⟨rhs', there⟩ := canonical.exists_initial_of_wraps avoids here chain
    ⟨production, known, lhs⟩
  have cycle' := Relation.TransGen.head' wraps chain
  have marked : p.automaton.HasItem (topState below)
      (.initial u rhs' (Item.lookaheadOf (b :: rest))) := there
  obtain ⟨target', rows, edge', nonempty, steps⟩ :=
    canonical.exists_steps_of_wraps avoids free under marked (different cycle') wraps edge
  exact ⟨rows, _, nonempty, steps, u, rhs', target', cycle', there, edge', rfl⟩

end Circle

/-- What an item offers above a frame whose symbol all frames above it vanish behind is offered behind
this symbol in an item of the state below. -/
private theorem exists_offers_below {frame : Frame} {below : List Frame} {t : Symbol}
    {stack : List Frame} (path : Automaton.Path p.machine.grammar p.automaton stack) {item : Item}
    (here : p.automaton.HasItem (topState stack) item) {taken : List Frame}
    (split : stack = taken ++ frame :: below)
    (empty : ∀ f ∈ taken, p.machine.grammar.Derives [f.symbol] [])
    (offers : p.machine.grammar.Offers t item.after) :
    ∃ other rest, p.automaton.HasItem (topState below) other ∧
      other.after = frame.symbol :: rest ∧ p.machine.grammar.Offers t rest := by
  refine path.hasItem_induction canonical.machine.toCanonical (Q := fun stack item => ∀ taken,
    stack = taken ++ frame :: below → (∀ f ∈ taken, p.machine.grammar.Derives [f.symbol] []) →
      p.machine.grammar.Offers t item.after → ∃ other rest,
        p.automaton.HasItem (topState below) other ∧ other.after = frame.symbol :: rest ∧
          p.machine.grammar.Offers t rest)
    (fun taken split => ?_) (fun top under item rest there ih after taken split empty offers => ?_)
    (fun stack item there ih q predicted taken split empty offers => ?_) here taken split empty
      offers
  · simp at split
  · cases taken with
    | nil =>
      obtain ⟨rfl, rfl⟩ := List.cons_eq_cons.mp split
      exact ⟨item, rest, there, after, offers⟩
    | cons f taken =>
      obtain ⟨rfl, rfl⟩ := List.cons_eq_cons.mp split
      obtain ⟨vanishes, empty⟩ := List.forall_mem_cons.mp empty
      refine ih taken rfl empty ?_
      rw [after]
      exact .behind vanishes offers
  · have belongs := (canonical.machine.belongs there).production
    obtain ⟨production, mem, rest, b, after, first, rfl⟩ :=
      canonical.exists_production_of_mem_predictions belongs predicted
    have occurs := Item.rest_subset_occurrences belongs after
    have known := canonical.isLookahead_of_hasItem avoids there
    have opens : p.machine.grammar.Opens rest := by
      rcases canonical.cases_of_mem_ofString avoids occurs known first with
        ⟨v, derives⟩ | ⟨_, vanishes⟩
      · exact .inr ⟨b, v,
          (canonical.isLookahead_of_mem_ofString avoids occurs known first).isTerminal, derives⟩
      · exact .inl vanishes
    refine ih taken split empty ?_
    rw [after]
    exact .inside mem offers opens

section Idling

variable {frame : Frame} {below : List Frame} {input : List Symbol}
  (stuck : ∀ other rest, p.automaton.HasItem (topState below) other →
    other.after = frame.symbol :: rest → ¬ p.machine.grammar.Offers (Item.lookaheadOf input) rest ∧
      ¬ (other.lookahead = Item.lookaheadOf input ∧ p.machine.grammar.Derives rest []))
include stuck

omit avoids in
/-- What stands before the dot of a complete item stands above the frame: behind a dot moved back below
it everything would vanish. -/
private theorem length_le_of_complete {taken : List Frame}
    (path : Automaton.Path p.machine.grammar p.automaton (taken ++ frame :: below))
    (empty : ∀ f ∈ taken, p.machine.grammar.Derives [f.symbol] []) {lhs : Symbol}
    {before : List Symbol} (here : p.automaton.HasItem (topState (taken ++ frame :: below))
      ⟨lhs, before, [], Item.lookaheadOf input⟩) : before.length ≤ taken.length := by
  by_contra more
  obtain ⟨front, back, rfl, length⟩ : ∃ front back, before = front ++ back ∧
      back.length = taken.length + 1 :=
    ⟨before.take (before.length - (taken.length + 1)), before.drop (before.length -
      (taken.length + 1)), (List.take_append_drop ..).symm, by rw [List.length_drop]; omega⟩
  obtain ⟨popped, below', split, symbols, there⟩ :=
    path.uncover_append canonical.machine.toCanonical here
  obtain ⟨rfl, rfl⟩ : taken ++ [frame] = popped ∧ below = below' := by
    refine List.append_inj (by simpa using split) ?_
    have same := congrArg List.length symbols
    rw [List.length_map, List.length_reverse] at same
    rw [List.length_append, List.length_singleton, same, length]
  obtain rfl : back = frame.symbol :: (taken.map (·.symbol)).reverse := by
    simpa using (congrArg List.reverse symbols).symm
  refine (stuck _ _ there rfl).2 ⟨rfl, Grammar.Derives.of_forall_vanishes fun s mem => ?_⟩
  obtain ⟨f, inside, rfl⟩ : ∃ f ∈ taken, f.symbol = s := by simpa using mem
  exact empty f inside

variable (acts : p.machine.action ⟨below, input⟩ ≠ .error)
include acts

omit canonical avoids stuck in
/-- Recovery drops frames that vanish, or it leads to the stack below the others. -/
private theorem exists_recovery {c : Configuration} (idles : p.Idles frame below input c)
    (error : p.machine.action c = .error) :
    ∃ d, p.machine.step c = .next d ∧ (d = ⟨below, input⟩ ∨ p.Idles frame below input d) := by
  obtain ⟨taken, rfl, path, empty⟩ := idles
  have under : below <:+ taken ++ frame :: below := ⟨taken ++ [frame], by simp⟩
  have lower : below.length < (taken ++ frame :: below).length := by
    simp only [List.length_append, List.length_cons]
    omega
  cases found : Machine.unwind p.machine.table (Item.lookaheadOf input)
      (taken ++ frame :: below) with
  | none => exact absurd (Machine.action_eq_error_of_unwind found below under lower) acts
  | some rest =>
    have step : p.machine.step ⟨taken ++ frame :: below, input⟩ = .next ⟨rest, input⟩ := by
      have recovers : p.machine.recover ⟨taken ++ frame :: below, input⟩ = some ⟨rest, input⟩ :=
        congrArg (Option.map _) found
      simp only [Machine.step, error, recovers]
    refine ⟨_, step, ?_⟩
    obtain ⟨⟨dropped, split⟩, _, _, longest⟩ := Machine.longest_of_unwind found
    have above := longest below under lower acts
    rcases Nat.lt_or_ge taken.length dropped.length with more | le
    · rw [← List.singleton_append, ← List.append_assoc] at split
      obtain ⟨middle, rfl, same⟩ := Machine.exists_append_of_length_le split.symm
        (by simpa using Nat.succ_le_of_lt more)
      have lengths := congrArg List.length same
      rw [List.length_append] at lengths
      have le := above.length_le
      exact .inl (by rw [above.eq_of_length (by omega)])
    · obtain ⟨middle, rfl, rfl⟩ := Machine.exists_append_of_length_le split le
      refine .inr ⟨middle, rfl, ?_, fun f mem => empty f (List.mem_append_right _ mem)⟩
      rw [List.append_assoc] at path
      exact path.of_append

variable (kind : (Item.lookaheadOf input).isTerminal = true)
  (visible : Item.lookaheadOf input ≠ .endMark)
include kind visible

/-- Where nothing serves the current symbol behind the symbol of the frame, reductions stay above
it. -/
private theorem exists_step_of_idles {c : Configuration} (idles : p.Idles frame below input c) :
    ∃ d, p.machine.step c = .next d ∧ (d = ⟨below, input⟩ ∨ p.Idles frame below input d) := by
  by_cases error : p.machine.action c = .error
  · exact exists_recovery acts idles error
  obtain ⟨taken, rfl, path, empty⟩ := idles
  cases canonical.machine.stepCase (c := ⟨taken ++ frame :: below, input⟩) path with
  | shift action step mem edge =>
    obtain ⟨item, rest, here, after⟩ := canonical.machine.exists_next_of_transition? edge
      (Grammar.occurrences_subset_symbols (Grammar.mem_terminals.mp mem).1)
    have offers : p.machine.grammar.Offers (Item.lookaheadOf input) item.after := by
      rw [after]
      exact .here rest
    obtain ⟨other, rest, there, after', served⟩ :=
      canonical.exists_offers_below avoids path here rfl empty offers
    exact absurd served (stuck other rest there after').1
  | goto action step occurs nonTerminal edge =>
    rw [Symbol.isTerminal_eq_not] at kind
    change (Item.lookaheadOf input).isNonTerminal = true at nonTerminal
    rw [nonTerminal] at kind
    cases kind
  | accept action step here complete start mark => exact absurd mark visible
  | recover action => exact absurd action error
  | reject action => exact absurd action error
  | @reduce rule target item popped rest action step _ here complete lookahead _ split symbols =>
    refine ⟨_, step, .inr ?_⟩
    obtain ⟨lhs, before, after, b⟩ := item
    obtain rfl : after = [] := complete
    obtain rfl : Item.lookaheadOf input = b := lookahead
    change taken ++ frame :: below = popped ++ rest at split
    rcases Nat.lt_or_ge taken.length popped.length with more | le
    · have lengths : popped.length = before.length := by simpa using congrArg List.length symbols
      have bound := canonical.length_le_of_complete stuck path empty here
      omega
    · obtain ⟨middle, rfl, rfl⟩ := Machine.exists_append_of_length_le split.symm le
      have longer := canonical.machine.path_of_step (c := ⟨_, input⟩) path step
      refine ⟨⟨lhs, target⟩ :: middle, rfl, longer, List.forall_mem_cons.mpr ⟨?_, fun f mem =>
        empty f (List.mem_append_right _ mem)⟩⟩
      have belongs := (canonical.machine.belongs here).production
      refine (Grammar.Derives.of_mem belongs).trans
        (Grammar.Derives.of_forall_vanishes fun s mem => ?_)
      have inside : s ∈ before.reverse := by simpa [Item.production, Item.rhs] using mem
      rw [← symbols] at inside
      obtain ⟨f, held, rfl⟩ := List.mem_map.mp inside
      exact empty f (List.mem_append_left _ held)

end Idling

variable (ends : ∀ input, ∃ limit trace, p.parse limit input = some (.ok trace))
include free ends

/-- Where every run ends, what can begin behind a symbol that vanishes is served behind it. -/
private theorem serves_of_ends {state : ItemSet} (mem : state ∈ p.automaton.states) {item : Item}
    (inside : item ∈ state) {s : Symbol} {rest : List Symbol} (after : item.after = s :: rest)
    (vanishes : p.machine.grammar.Derives [s] []) {t : Symbol} {v : List Symbol}
    (kind : t.isTerminal = true) (derives : p.machine.grammar.Derives rest (t :: v)) :
    Serves p.machine.grammar state s t := by
  obtain ⟨below, path, found⟩ := canonical.machine.exists_path mem
  obtain ⟨more, halts⟩ := canonical.machine.exists_halts_of_ends ends path t
  by_contra unserved
  obtain ⟨lhs, before, _, b⟩ := item
  obtain rfl : _ = s :: rest := after
  have here : p.automaton.HasItem (topState below) ⟨lhs, before, [s] ++ rest, b⟩ :=
    ⟨state, found, inside⟩
  have occurs := derives.subset_occurrences (Item.rest_subset_occurrences
    (canonical.machine.belongs here).production rfl) (List.mem_cons_self ..)
  have known : p.machine.grammar.IsLookahead t :=
    .inl (Grammar.mem_terminals.mpr ⟨occurs, kind⟩)
  have visible : t ≠ .endMark := by
    rintro rfl
    exact absurd (canonical.avoidsEndMark avoids _ (Grammar.occurrences_subset_symbols occurs))
      (by decide)
  have first : Item.lookaheadOf (t :: more) ∈ p.machine.grammar.firstTable.ofString (rest ++ [b]) :=
    canonical.mem_ofString_of_derives avoids (derives.concat .refl)
      (canonical.mem_ofString_cons known _)
  -- the symbol is reduced before the terminal
  obtain ⟨_, taken, length, ⟨rows, steps, _, clean⟩, there⟩ :=
    canonical.replays_of_vanishes avoids free vanishes here first known
  obtain ⟨frame, rfl⟩ := List.length_eq_one_iff.mp length
  have longer := canonical.machine.path_of_steps steps path
  obtain ⟨rfl, _⟩ := longer.retreat canonical.machine.toCanonical there
  obtain ⟨nonempty, acts⟩ : rows ≠ [] ∧ p.machine.action ⟨below, t :: more⟩ ≠ .error := by
    generalize taller : [frame] ++ below = top at steps
    cases steps with
    | refl => simp at taller
    | head step _ => exact ⟨List.cons_ne_nil _ _, clean _ (List.mem_cons_self ..)⟩
  have stuck : ∀ other behind, p.automaton.HasItem (topState below) other →
      other.after = frame.symbol :: behind → ¬ p.machine.grammar.Offers t behind ∧
        ¬ (other.lookahead = t ∧ p.machine.grammar.Derives behind []) := by
    rintro other behind ⟨state', found', inside'⟩ after
    obtain rfl := Option.some.inj (found.symm.trans found')
    exact ⟨fun offers => unserved ⟨other, inside', behind, after, .inl offers⟩,
      fun both => unserved ⟨other, inside', behind, after, .inr both⟩⟩
  -- and nothing is taken above it
  refine Machine.not_halts
    (P := fun c => c = ⟨below, t :: more⟩ ∨ p.Idles frame below (t :: more) c) ?_ (.inl rfl) halts
  rintro c (rfl | idles)
  · exact ⟨rows, _, nonempty, steps, .inr ⟨[], rfl, longer, List.forall_mem_nil _⟩⟩
  · obtain ⟨d, step, stays⟩ :=
      canonical.exists_step_of_idles avoids stuck acts kind visible idles
    exact ⟨_, d, List.cons_ne_nil _ _, .single step, stays⟩

/-- Where every run ends, the parser proceeds. -/
theorem proceeds_of_ends : p.Proceeds where
  serves _ mem _ inside _ _ after vanishes _ _ kind derives :=
    canonical.serves_of_ends avoids free ends mem inside after vanishes kind derives
  acyclic _ mem _ inside := canonical.acyclic_of_ends avoids free ends mem inside

end Canonical

/-- When parsing ends. For a grammar that has been read, with a start name that shows a non-terminal
and without the end mark, there is a parser; and if its automaton has no conflicts, then it accepts or
rejects every input after finitely many steps exactly if it proceeds. So it does where all non-terminals
derive terminal strings, and where no symbol vanishes or wraps itself, with or without symbols that
have no productions. -/
theorem exists_trace_iff_proceeds {text : String} {g : Grammar} (read : Grammar.read text = .ok g)
    (capital : (Symbol.ofName g.start.name).isNonTerminal = true) (avoids : g.AvoidsEndMark) :
    ∃ p, ofGrammar g = .ok p ∧ (p.automaton.ConflictFree →
      ((∀ input, ∃ limit trace, p.parse limit input = some (.ok trace)) ↔ p.Proceeds) ∧
      (g.Productive → p.Proceeds) ∧
      ((∀ s ∈ g.symbols, ¬ g.Derives [s] [] ∧ ¬ Relation.TransGen g.Wraps s s) → p.Proceeds)) := by
  have lhs := (Grammar.isSpelled_of_read read).1.lhs
  have kinds := Grammar.oneKindPerName_of_read read capital
  obtain ⟨p, built⟩ := exists_ofGrammar (Grammar.isEmpty_of_isNonTerminal_ofName capital)
  have canonical := canonical_of_ofGrammar lhs kinds built
  refine ⟨p, built, fun free => ⟨⟨canonical.proceeds_of_ends avoids free, fun proceeds input => ?_⟩,
    fun productive => canonical.proceeds_of_ends avoids free
      (canonical.exists_trace avoids free (canonical.productive productive)), fun plain => ?_⟩⟩
  · exact Machine.halts_initial_iff.mp (canonical.halts_of_path avoids free proceeds .nil)
  · exact canonical.proceeds_of_plain plain

/-- `A` can vanish, and `C` has no productions: `S -> A B C`, `A -> ε`, `B -> b`. -/
def stalling : Grammar :=
  (((Grammar.ofStart (.nonTerminal "S")).push (.nonTerminal "S")
    [.nonTerminal "A", .nonTerminal "B", .nonTerminal "C"]).push (.nonTerminal "A") []).push
      (.nonTerminal "B") [.terminal "b"]

/-- Behind `A` a string can begin with `b`, but with `C` behind it `B` is not predicted: the machine
reduces to `A`, meets an error, drops `A`, and is where it was. -/
theorem parse_stalling_eq_none : Grammar.read "S\nS -> A B C\nA -> ε\nB -> b" = .ok stalling ∧
    (Symbol.ofName stalling.start.name).isNonTerminal = true ∧ stalling.AvoidsEndMark ∧
    ∃ p, ofGrammar stalling = .ok p ∧ p.automaton.ConflictFree ∧
      ∀ limit, p.parse limit [.terminal "b"] = none := by
  have lhs : stalling.LeftHandSidesNonTerminal := by decide +kernel
  have kinds : stalling.OneKindPerName := by decide +kernel
  obtain ⟨p, built⟩ := exists_ofGrammar (g := stalling) (by decide +kernel)
  let behind : Configuration := ⟨[⟨.nonTerminal "A", 1⟩], [.terminal "b", .endMark]⟩
  have computed := of_any_ofGrammar (f := fun p => decide (p.automaton.ConflictFree ∧
    p.machine.step (Machine.initial [.terminal "b"]) = .next behind ∧
    p.machine.step behind = .next (Machine.initial [.terminal "b"]))) built (by decide +kernel)
  obtain ⟨free, reduced, dropped⟩ := of_decide_eq_true computed
  refine ⟨by decide +kernel, by decide +kernel, by decide +kernel, p, built, free, ?_⟩
  refine Machine.run_eq_none
    (P := fun c => c = Machine.initial [.terminal "b"] ∨ c = behind) (.inl rfl) ?_
  rintro c (rfl | rfl)
  · exact ⟨behind, reduced, .inr rfl⟩
  · exact ⟨_, dropped, .inl rfl⟩

/-- The grammar before with a production more, `S -> A b`. -/
def serving : Grammar :=
  ((((Grammar.ofStart (.nonTerminal "S")).push (.nonTerminal "S")
    [.nonTerminal "A", .nonTerminal "B", .nonTerminal "C"]).push (.nonTerminal "S")
      [.nonTerminal "A", .terminal "b"]).push (.nonTerminal "A") []).push (.nonTerminal "B")
        [.terminal "b"]

/-- Behind `A` the new production serves `b`. The second one in a row is dropped, and the run ends. -/
theorem exists_trace_serving :
    Grammar.read "S\nS -> A B C | A b\nA -> ε\nB -> b" = .ok serving ∧
    (Symbol.ofName serving.start.name).isNonTerminal = true ∧ serving.AvoidsEndMark ∧
    ∃ p, ofGrammar serving = .ok p ∧ p.automaton.ConflictFree ∧ p.Proceeds ∧
      ∃ limit trace, p.parse limit [.terminal "b", .terminal "b"] = some (.ok trace) := by
  have read : Grammar.read "S\nS -> A B C | A b\nA -> ε\nB -> b" = .ok serving := by
    decide +kernel
  have capital : (Symbol.ofName serving.start.name).isNonTerminal = true := by decide +kernel
  have avoids : serving.AvoidsEndMark := by decide +kernel
  obtain ⟨p, built, ends⟩ := exists_trace_iff_proceeds read capital avoids
  have canonical : p.Canonical serving :=
    canonical_of_ofGrammar (by decide +kernel) (by decide +kernel) built
  let rank (s : Symbol) : Nat := ["S'", "S", "A", "B", "b"].idxOf s.name
  have computed := of_any_ofGrammar (f := fun p => decide (p.automaton.ConflictFree ∧
    (∀ production ∈ p.grammar.productions.toList, ∀ t ∈ production.rhs.head?,
      rank production.lhs < rank t) ∧
    ∀ state ∈ p.automaton.states, ∀ item ∈ state.toList,
      ∀ t ∈ (p.grammar.firstTable.ofString item.after.tail).toList, t.isEmpty = true ∨
        ∃ other ∈ state.toList, other.after.take 2 = item.after.take 1 ++ [t])) built
    (by decide +kernel)
  obtain ⟨free, rises, served⟩ := of_decide_eq_true computed
  have proceeds : p.Proceeds := by
    refine ⟨?_, fun _ _ item _ => Grammar.not_wraps_self rank rises item.lhs⟩
    intro state mem item inside s rest after _ t v kind derives
    obtain ⟨id, _, found⟩ := List.mem_iff_getElem.mp mem
    have belongs := canonical.machine.belongs
      ⟨state, List.getElem?_eq_some_iff.mpr ⟨_, found⟩, inside⟩
    have occurs := derives.subset_occurrences
      (Item.rest_subset_occurrences belongs.production after) (List.mem_cons_self ..)
    have known : p.machine.grammar.IsLookahead t :=
      .inl (Grammar.mem_terminals.mpr ⟨occurs, kind⟩)
    have first := canonical.mem_ofString_of_derives avoids derives
      (canonical.mem_ofString_cons known v)
    have behind : t ∈ (p.grammar.firstTable.ofString item.after.tail).toList := by
      rw [after]
      exact first
    obtain ⟨other, inside', begins⟩ := (served state mem item inside t behind).resolve_left
      (by simp [Grammar.isEmpty_of_mem_occurrences occurs])
    refine ⟨other, inside', t :: other.after.drop 2, ?_, .inl (.here _)⟩
    rw [← List.take_append_drop 2 other.after, begins, after]
    rfl
  obtain ⟨always, _⟩ := ends free
  exact ⟨read, capital, avoids, p, built, free, proceeds, always.mpr proceeds _⟩

end CanonicalLR.Parser
