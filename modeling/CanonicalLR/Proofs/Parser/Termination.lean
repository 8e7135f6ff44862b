import CanonicalLR.Proofs.Grammar.Openings
import CanonicalLR.Proofs.Machine.Halting
import CanonicalLR.Proofs.Parser.Progress
import Mathlib.Data.Fintype.Card
import Mathlib.Data.Set.Finite.Basic
import Mathlib.Logic.Relation

/-!
Runs that end. In an automaton without conflicts a run could go on forever in two ways. A symbol that
vanishes is reduced on a lookahead which nothing in the state serves, and recovery leads back to the
reduction; or left-hand sides wrap each other in a circle. Where neither is possible the parser
proceeds, and the machine halts on every path.

The proof is an induction on the rest of the input and, inside, on the height of the stack. What an
action does is followed until the current symbol is taken, or until something below the stack is
reduced (`HaltsBelow`); at one height the left-hand sides grow along the order of wrapping.
-/

set_option autoImplicit false
set_option relaxedAutoImplicit false

namespace CanonicalLR.Parser

/-- Behind a symbol a state serves a terminal: an item in which the symbol comes next offers the
terminal behind it, or has it as its lookahead and can end behind the symbol. -/
def Serves (g : Grammar) (state : ItemSet) (s t : Symbol) : Prop :=
  ∃ item ∈ state, ∃ behind, item.after = s :: behind ∧
    (g.Offers t behind ∨ (item.lookahead = t ∧ g.Derives behind []))

/-- A parser's reductions get it on. Where a symbol that vanishes comes next in an item, the state
serves every terminal with which the rest of the item can begin; and no left-hand side of an item wraps
itself, by one production or several. -/
structure Proceeds (p : Parser) : Prop where
  serves : ∀ state ∈ p.automaton.states, ∀ item ∈ state, ∀ s rest, item.after = s :: rest →
    p.grammar.Derives [s] [] → ∀ t v, t.isTerminal = true → p.grammar.Derives rest (t :: v) →
      Serves p.grammar state s t
  acyclic : ∀ state ∈ p.automaton.states, ∀ item ∈ state,
    ¬ Relation.TransGen p.grammar.Wraps item.lhs item.lhs

/-- Behind a stack the machine halts once a symbol has been reduced there. -/
def HaltsBehind (p : Parser) (below : List Frame) (input : List Symbol) (s : Symbol) : Prop :=
  ∀ target, p.automaton.transition? (topState below) s = some target →
    p.machine.Halts ⟨⟨s, target⟩ :: below, input⟩

/-- Wherever frames of a stack are reduced by an item of which the rest vanishes, the machine
halts. -/
def HaltsBelow (p : Parser) (stack : List Frame) (input : List Symbol) : Prop :=
  ∀ popped below s before after, popped ≠ [] → stack = popped ++ below →
    popped.length = before.length →
    p.automaton.HasItem (topState stack) ⟨s, before, after, Item.lookaheadOf input⟩ →
    p.machine.grammar.Derives after [] → p.HaltsBehind below input s

namespace Canonical

variable {g : Grammar} {p : Parser} (canonical : p.Canonical g)
include canonical

/-- What holds of a left-hand side of items if it holds of those that wrap it holds of all of
them. -/
private theorem wraps_induction (proceeds : p.Proceeds) {Q : Symbol → Prop}
    (step : ∀ s, (∀ t id item, p.automaton.HasItem id item → item.lhs = t →
      p.grammar.Wraps t s → Q t) → Q s)
    {id : Nat} {item : Item} (here : p.automaton.HasItem id item) : Q item.lhs := by
  -- there are finitely many left-hand sides, and none is above itself
  let Known := { s : Symbol // ∃ id item, p.automaton.HasItem id item ∧ item.lhs = s }
  have finite : Finite Known := by
    refine Set.Finite.to_subtype ((List.finite_toSet p.grammar.symbols).subset ?_)
    rintro s ⟨id, item, here, rfl⟩
    exact Grammar.lhs_mem_symbols (canonical.machine.belongs here).production
  let Above (t s : Known) : Prop := Relation.TransGen p.grammar.Wraps t.1 s.1
  have trans : IsTrans Known Above := ⟨fun _ _ _ first second => first.trans second⟩
  have irrefl : Std.Irrefl Above := by
    refine ⟨?_⟩
    rintro ⟨s, id, item, ⟨state, here, mem⟩, rfl⟩
    exact proceeds.acyclic state (List.mem_of_getElem? here) item mem
  have found : WellFounded Above := Finite.wellFounded_of_trans_of_irrefl Above
  have all : ∀ s : Known, Q s.1 := fun s => by
    induction s using found.induction with
    | _ s ih =>
      exact step s.1 fun t id item here lhs wraps => ih ⟨t, id, item, here, lhs⟩ (.single wraps)
  exact all ⟨item.lhs, id, item, here, rfl⟩

/-- Below a stack the machine halts if it does on stacks that are no higher, and behind the rest of
the stack once the symbol on top is wrapped. -/
private theorem haltsBelow_cons {frame : Frame} {below : List Frame} {input : List Symbol}
    (path : Automaton.Path p.machine.grammar p.automaton (frame :: below))
    (lower : ∀ other : List Frame, Automaton.Path p.machine.grammar p.automaton other →
      other.length < (frame :: below).length → p.machine.Halts ⟨other, input⟩)
    (wraps : ∀ t rhs,
      p.automaton.HasItem (topState below) (.initial t rhs (Item.lookaheadOf input)) →
      p.machine.grammar.Wraps t frame.symbol → p.HaltsBehind below input t) :
    p.HaltsBelow (frame :: below) input := by
  intro popped rest s before after nonempty split length here vanishes
  obtain ⟨popped', rest', split', symbols, initial⟩ :=
    path.uncover canonical.machine.toCanonical here
  obtain ⟨rfl, rfl⟩ : popped' = popped ∧ rest' = rest := by
    refine List.append_inj (split'.symm.trans split) ?_
    simpa [length] using congrArg List.length symbols
  cases popped' with
  | nil => exact absurd rfl nonempty
  | cons top popped' =>
    obtain ⟨rfl, rfl⟩ := List.cons_eq_cons.mp split
    cases popped' with
    | nil =>
      obtain rfl : before = [frame.symbol] := by simpa using (congrArg List.reverse symbols).symm
      have belongs := (canonical.machine.belongs initial).production
      exact wraps s _ initial ⟨_, belongs, rfl, after, rfl, vanishes⟩
    | cons other popped' =>
      intro target edge
      refine lower _ (canonical.machine.path_cons path.of_cons.of_append initial edge) ?_
      have height : ((other :: popped') ++ rest').length = popped'.length + 1 + rest'.length :=
        List.length_append
      change rest'.length + 1 < ((other :: popped') ++ rest').length + 1
      omega

variable (avoids : g.AvoidsEndMark) (free : p.automaton.ConflictFree)
include avoids

include free in
/-- Where the rest of an item on top vanishes on its lookahead, the item is reduced in the end. It takes
off the frames of what stood before the dot; or the machine accepts. -/
theorem reduces_of_vanishes {stack : List Frame}
    (path : Automaton.Path p.machine.grammar p.automaton stack) {lhs : Symbol}
    {before after input : List Symbol}
    (here : p.automaton.HasItem (topState stack) ⟨lhs, before, after, Item.lookaheadOf input⟩)
    (vanishes : p.machine.grammar.Derives after [])
    (known : p.machine.grammar.IsLookahead (Item.lookaheadOf input)) :
    (lhs = p.machine.grammar.start ∧ p.machine.Halts ⟨stack, input⟩) ∨
    ∃ popped below target rows, stack = popped ++ below ∧ popped.length = before.length ∧
      p.automaton.HasItem (topState below)
        (.initial lhs (before ++ after) (Item.lookaheadOf input)) ∧
      p.automaton.transition? (topState below) lhs = some target ∧ rows ≠ [] ∧
      p.machine.Steps ⟨stack, input⟩ rows ⟨⟨lhs, target⟩ :: below, input⟩ := by
  rw [← List.append_nil after] at here
  obtain ⟨_, taken, length, ⟨rows, steps, _, _⟩, complete⟩ := canonical.replays_of_vanishes avoids
    free vanishes here (canonical.mem_ofString_cons known []) known
  have longer := canonical.machine.path_of_steps steps path
  rcases canonical.machine.step_of_complete canonical.start_not_mem_occurrences free longer
    complete known with
    ⟨start, accepts⟩ | ⟨popped, below, target, split, lengths, initial, goto, step⟩
  · exact .inl ⟨start, (Machine.Halts.of_halt accepts).of_steps steps⟩
  rw [List.length_append, ← length] at lengths
  obtain ⟨popped', rfl, rfl⟩ := Machine.exists_append_of_length_le split (by omega)
  refine .inr ⟨popped', below, target, _, rfl, ?_, initial, goto, ?_, steps.trans (.single step)⟩
  · rw [List.length_append] at lengths
    omega
  · exact List.append_ne_nil_of_right_ne_nil _ (List.cons_ne_nil _ _)

/-- What the state below a left-hand side without symbols serves behind it, where the parser
proceeds: the item that has predicted this one can begin with the lookahead behind it, or ends
there. -/
private theorem serves_of_vanishes (proceeds : p.Proceeds) {id : Nat} {s b : Symbol}
    {rhs : List Symbol} (here : p.automaton.HasItem id (.initial s rhs b))
    (occurs : s ∈ p.machine.grammar.occurrences) (vanishes : p.machine.grammar.Derives [s] []) :
    ∃ item behind, p.automaton.HasItem id item ∧ item.after = s :: behind ∧
      (p.machine.grammar.Offers b behind ∨
        (item.lookahead = b ∧ p.machine.grammar.Derives behind [])) := by
  have known := canonical.isLookahead_of_hasItem avoids here
  rcases canonical.machine.origin here rfl with ⟨_, start⟩ | ⟨outer, there, predicted⟩
  · rw [show s = p.machine.grammar.start from congrArg Item.lhs start] at occurs
    exact absurd occurs canonical.start_not_mem_occurrences
  · have belongs := (canonical.machine.belongs there).production
    obtain ⟨production, mem, rest, a, after, first, same⟩ :=
      canonical.exists_production_of_mem_predictions belongs predicted
    cases same
    rcases canonical.cases_of_mem_ofString avoids (Item.rest_subset_occurrences belongs after)
      (canonical.isLookahead_of_hasItem avoids there) first with ⟨v, derives⟩ | ⟨same, empty⟩
    · obtain ⟨state, found, inside⟩ := there
      obtain ⟨item, inside', behind, after', served⟩ := proceeds.serves state
        (List.mem_of_getElem? found) outer inside _ rest after vanishes _ v known.isTerminal derives
      exact ⟨item, behind, ⟨state, found, inside'⟩, after', served⟩
    · exact ⟨outer, rest, there, after, .inr ⟨same.symm, empty⟩⟩

section Shorter

variable {input : List Symbol} (less : ∀ d : Configuration,
  Automaton.Path p.machine.grammar p.automaton d.stack → d.input.length < input.length →
    p.machine.Halts d)
include less

/-- A machine that takes the current symbol in the end halts if it does so with less of the
input. -/
private theorem halts_of_resolves {stack : List Frame}
    (path : Automaton.Path p.machine.grammar p.automaton stack)
    (resolves : p.machine.Resolves ⟨stack, input⟩) : p.machine.Halts ⟨stack, input⟩ := by
  obtain ⟨_, d, ⟨rows, steps, _, _⟩, same, consumes⟩ := resolves
  refine Machine.Halts.of_steps ?_ steps
  have there := canonical.machine.path_of_steps steps path
  cases step : p.machine.step d with
  | next e =>
    have shorter := canonical.length_input_lt_of_consumes avoids consumes step
    rw [same] at shorter
    exact (less e (canonical.machine.path_of_step there step) shorter).of_steps (.single step)
  | halt verdict => exact .of_halt step
  | fail defect => exact absurd step (canonical.machine.step_ne_fail there defect)

include free

/-- Where a symbol is reduced that vanishes, the machine halts if it does below the stack. -/
private theorem haltsBehind_of_vanishes (proceeds : p.Proceeds) {stack : List Frame}
    (path : Automaton.Path p.machine.grammar p.automaton stack) (pops : p.HaltsBelow stack input)
    {s : Symbol} {rhs : List Symbol}
    (here : p.automaton.HasItem (topState stack) (.initial s rhs (Item.lookaheadOf input)))
    (vanishes : p.machine.grammar.Derives [s] []) : p.HaltsBehind stack input s := by
  refine canonical.wraps_induction proceeds (Q := fun s => ∀ rhs,
    p.automaton.HasItem (topState stack) (.initial s rhs (Item.lookaheadOf input)) →
      p.machine.grammar.Derives [s] [] → p.HaltsBehind stack input s)
    (fun s ih rhs here vanishes target edge => ?_) here rhs here vanishes
  have path' := canonical.machine.path_cons path here edge
  have known := canonical.isLookahead_of_hasItem avoids here
  have occurs := canonical.machine.mem_occurrences_of_transition? edge
    (Grammar.lhs_mem_symbols (canonical.machine.belongs here).production)
  obtain ⟨⟨lhs, before, _, b⟩, behind, there, rfl, served⟩ :=
    canonical.serves_of_vanishes avoids proceeds here occurs vanishes
  obtain ⟨target', same, moved⟩ := canonical.machine.advance there rfl
  obtain rfl := Option.some.inj (edge.symm.trans same)
  rcases served with offers | ⟨rfl, empty⟩
  · exact canonical.halts_of_resolves avoids less path'
      (canonical.resolves_of_offers avoids free offers known moved)
  -- the rest of the item vanishes on its lookahead, and the item is reduced
  rcases canonical.reduces_of_vanishes avoids free path' moved empty known with
    ⟨_, halts⟩ | ⟨popped, below, target', rows, split, length, initial, goto, _, steps⟩
  · exact halts
  refine Machine.Halts.of_steps ?_ steps
  have whole : p.machine.grammar.Derives (s :: behind) [] := vanishes.concat empty
  cases popped with
  | nil => simp at length
  | cons top popped =>
    obtain ⟨rfl, rfl⟩ := List.cons_eq_cons.mp split
    have height : popped.length = before.length := by simpa using length
    rw [List.append_assoc, List.singleton_append] at initial
    cases before with
    | nil =>
      obtain rfl := List.eq_nil_of_length_eq_zero height
      have belongs := (canonical.machine.belongs initial).production
      exact ih lhs _ _ initial rfl ⟨_, belongs, rfl, behind, rfl, empty⟩ _ initial
        ((Grammar.Derives.of_mem belongs).trans whole) target' goto
    | cons t before =>
      have nonempty : popped ≠ [] := List.ne_nil_of_length_eq_add_one height
      exact pops popped below lhs (t :: before) (s :: behind) nonempty rfl height there whole target'
        goto

/-- The machine halts where it does below the stack, on shorter stacks, and with less of the
input. -/
private theorem halts_of_haltsBelow (proceeds : p.Proceeds) {stack : List Frame}
    (path : Automaton.Path p.machine.grammar p.automaton stack) (pops : p.HaltsBelow stack input)
    (lower : ∀ other : List Frame, Automaton.Path p.machine.grammar p.automaton other →
      other.length < stack.length → p.machine.Halts ⟨other, input⟩) :
    p.machine.Halts ⟨stack, input⟩ := by
  have takes : ∀ d : Configuration, p.machine.step ⟨stack, input⟩ = .next d →
      p.machine.Consumes ⟨stack, input⟩ → p.machine.Halts ⟨stack, input⟩ := by
    intro d step consumes
    have shorter := canonical.length_input_lt_of_consumes avoids consumes step
    have there := canonical.machine.path_of_step (c := ⟨stack, input⟩) path step
    exact (less d there shorter).of_steps (.single step)
  cases canonical.machine.stepCase (c := ⟨stack, input⟩) path with
  | shift action step => exact takes _ step (.inl ⟨_, action⟩)
  | goto action step => exact takes _ step (.inr (.inl ⟨_, action⟩))
  | accept _ step => exact .of_halt step
  | reject _ step => exact .of_halt step
  | @recover dropped below action step split acts =>
    obtain rfl : stack = dropped ++ below := split
    refine Machine.Halts.of_steps (lower below path.of_append ?_) (.single step)
    cases dropped with
    | nil => exact absurd action acts
    | cons frame dropped =>
      simp only [List.cons_append, List.length_cons, List.length_append]
      omega
  | @reduce _ target item popped below _ step _ here complete lookahead _ split symbols initial _
      edge =>
    refine Machine.Halts.of_steps ?_ (.single step)
    obtain ⟨lhs, before, after, b⟩ := item
    obtain rfl : after = [] := complete
    obtain rfl : Item.lookaheadOf input = b := lookahead
    obtain rfl : stack = popped ++ below := split
    cases popped with
    | nil =>
      obtain rfl : before = [] := by simpa using symbols
      have vanishes := Grammar.Derives.of_mem (canonical.machine.belongs initial).production
      exact canonical.haltsBehind_of_vanishes avoids free less proceeds path pops initial vanishes
        target edge
    | cons frame popped =>
      exact pops (frame :: popped) below lhs before [] (List.cons_ne_nil _ _) rfl
        (by simpa using congrArg List.length symbols) here .refl target edge

/-- Behind a stack the machine halts whatever has been reduced there, if it does on stacks that are no
higher. -/
private theorem haltsBehind_of_initial (proceeds : p.Proceeds) {below : List Frame}
    (path : Automaton.Path p.machine.grammar p.automaton below)
    (lower : ∀ other : List Frame, Automaton.Path p.machine.grammar p.automaton other →
      other.length ≤ below.length → p.machine.Halts ⟨other, input⟩) {s : Symbol}
    {rhs : List Symbol}
    (here : p.automaton.HasItem (topState below) (.initial s rhs (Item.lookaheadOf input))) :
    p.HaltsBehind below input s := by
  refine canonical.wraps_induction proceeds (Q := fun s => ∀ rhs,
    p.automaton.HasItem (topState below) (.initial s rhs (Item.lookaheadOf input)) →
      p.HaltsBehind below input s) (fun s ih rhs here target edge => ?_) here rhs here
  have path' := canonical.machine.path_cons path here edge
  have lower' : ∀ other : List Frame, Automaton.Path p.machine.grammar p.automaton other →
      other.length < (⟨s, target⟩ :: below : List Frame).length →
        p.machine.Halts ⟨other, input⟩ :=
    fun other there shorter => lower other there (Nat.le_of_lt_succ shorter)
  refine canonical.halts_of_haltsBelow avoids free less proceeds path' ?_ lower'
  exact canonical.haltsBelow_cons path' lower'
    fun t rhs initial wraps => ih t _ _ initial rfl wraps rhs initial

end Shorter

include free

/-- From every configuration on a path the machine halts. -/
theorem halts_of_path (proceeds : p.Proceeds) {stack : List Frame} {input : List Symbol}
    (path : Automaton.Path p.machine.grammar p.automaton stack) :
    p.machine.Halts ⟨stack, input⟩ := by
  generalize length : input.length = n
  induction n using Nat.strongRecOn generalizing stack input with
  | ind n ihInput =>
    subst length
    have less : ∀ d : Configuration, Automaton.Path p.machine.grammar p.automaton d.stack →
        d.input.length < input.length → p.machine.Halts d :=
      fun d there shorter => ihInput _ shorter there rfl
    generalize height : stack.length = k
    induction k using Nat.strongRecOn generalizing stack with
    | ind k ihStack =>
      subst height
      have lower : ∀ other : List Frame, Automaton.Path p.machine.grammar p.automaton other →
          other.length < stack.length → p.machine.Halts ⟨other, input⟩ :=
        fun other there shorter => ihStack _ shorter there rfl
      refine canonical.halts_of_haltsBelow avoids free less proceeds path ?_ lower
      cases stack with
      | nil =>
        intro popped below _ _ _ nonempty split
        exact absurd (List.append_eq_nil_iff.mp split.symm).1 nonempty
      | cons frame below =>
        refine canonical.haltsBelow_cons path lower fun t rhs initial _ => ?_
        exact canonical.haltsBehind_of_initial avoids free less proceeds path.of_cons
          (fun other there le => lower other there (Nat.lt_succ_of_le le)) initial

/-- Where all non-terminals derive terminal strings, what the table acts on is resolved, and the
machine halts on every path. -/
private theorem halts_of_productive (productive : p.machine.grammar.Productive) {stack : List Frame}
    {input : List Symbol} (path : Automaton.Path p.machine.grammar p.automaton stack) :
    p.machine.Halts ⟨stack, input⟩ := by
  generalize length : input.length = n
  induction n using Nat.strongRecOn generalizing stack input with
  | ind n ih =>
    subst length
    have acting {stack : List Frame} (path : Automaton.Path p.machine.grammar p.automaton stack)
        (acts : p.machine.action ⟨stack, input⟩ ≠ .error) : p.machine.Halts ⟨stack, input⟩ :=
      canonical.halts_of_resolves avoids (fun d there shorter => ih _ shorter there rfl) path
        (canonical.resolves_of_action avoids free productive (c := ⟨stack, input⟩) path acts)
    by_cases error : p.machine.action ⟨stack, input⟩ = .error
    · cases step : p.machine.step ⟨stack, input⟩ with
      | next d =>
        -- recovery takes nothing of the input, and leads to an action
        have there := canonical.machine.path_of_step (c := ⟨stack, input⟩) path step
        obtain ⟨_, below, _, rfl, acts⟩ :=
          canonical.machine.exists_append_of_error (c := ⟨stack, input⟩) path error step
        exact (acting there acts).of_steps (.single step)
      | halt verdict => exact .of_halt step
      | fail defect =>
        exact absurd step (canonical.machine.step_ne_fail (c := ⟨stack, input⟩) path defect)
    · exact acting path error

/-- The parser comes to a verdict on every input. -/
theorem exists_trace (productive : p.machine.grammar.Productive) (input : List Symbol) :
    ∃ limit trace, p.parse limit input = some (.ok trace) :=
  Machine.halts_initial_iff.mp (canonical.halts_of_productive avoids free productive .nil)

end Canonical

end CanonicalLR.Parser
