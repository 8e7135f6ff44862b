import CanonicalLR.Machine.Reductions
import CanonicalLR.Proofs.Machine.Lookaheads

/-!
Augmented grammars whose start symbol may stand in right-hand sides. The table enters an acceptance at
the end mark for every complete item of the start symbol and no action for any other lookahead, so the
machine cannot go on behind a start symbol that is not the last one. It follows a rightmost derivation
backwards to the last use of the start symbol's production (`replays_of_rightmostDerives`), and accepts
or errs there, as the rest of the input is empty or not.
-/

set_option autoImplicit false
set_option relaxedAutoImplicit false

namespace CanonicalLR

namespace Grammar

variable {g : Grammar}

/-- A string has a rightmost derivation in which the start symbol, when it is replaced for the last
time, is the last symbol of what has been derived. -/
def StartsLast (g : Grammar) (w : List Symbol) : Prop :=
  ∃ first production later left, production ∈ g.productions ∧ production.lhs = g.start ∧
    g.RightmostDerives first [g.start] (left ++ [g.start]) ∧
    g.RightmostDerives later (left ++ production.rhs) w ∧ ∀ q ∈ later, q.lhs ≠ g.start

/-- A rightmost derivation uses no production of a symbol, or it uses one for the last time. -/
private theorem RightmostDerives.exists_last (A : Symbol) {productions : List Production}
    {u w : List Symbol} (derives : g.RightmostDerives productions u w) :
    (∀ q ∈ productions, q.lhs ≠ A) ∨ ∃ first production later left right,
      production ∈ g.productions ∧ production.lhs = A ∧ (∀ s ∈ right, s.isTerminal = true) ∧
      g.RightmostDerives first u (left ++ A :: right) ∧
      g.RightmostDerives later (left ++ production.rhs ++ right) w ∧ ∀ q ∈ later, q.lhs ≠ A := by
  induction derives with
  | refl => exact .inl nofun
  | @head production left right w productions mem terminals rest ih =>
    rcases ih with none | ⟨first, last, later, front, back, here, name, ends, before, after, others⟩
    · by_cases name : production.lhs = A
      · refine .inr ⟨[], production, productions, left, right, mem, name, terminals, ?_, rest, none⟩
        rw [name]
        exact .refl _
      · exact .inl (List.forall_mem_cons.mpr ⟨name, none⟩)
    · exact .inr ⟨production :: first, last, later, front, back, here, name, ends,
        .head mem terminals before, after, others⟩

/-- A sentence has a rightmost derivation, which uses a production of the start symbol. -/
private theorem exists_last_of_isSentence (start : g.start.isNonTerminal = true) {w : List Symbol}
    (sentence : g.IsSentence w) : ∃ first production later left right,
      production ∈ g.productions ∧ production.lhs = g.start ∧ (∀ s ∈ right, s.isTerminal = true) ∧
      g.RightmostDerives first [g.start] (left ++ g.start :: right) ∧
      g.RightmostDerives later (left ++ production.rhs ++ right) w ∧
      ∀ q ∈ later, q.lhs ≠ g.start := by
  obtain ⟨terminals, derives⟩ := sentence
  obtain ⟨productions, expands⟩ := derives.exists_expands terminals
  refine (expands.rightmostDerives.exists_last g.start).resolve_left fun none => ?_
  generalize form : [g.start] = u at expands
  cases expands with
  | nil => cases form
  | terminal kind _ =>
    obtain ⟨rfl, _⟩ := List.cons_eq_cons.mp form
    rw [Symbol.isTerminal_eq_not, start] at kind
    cases kind
  | @nonTerminal production inner outer _ _ _ _ _ _ =>
    obtain ⟨name, _⟩ := List.cons_eq_cons.mp form
    exact none production (by simp) name.symm

/-- It depends on nothing but the productions and the start symbol. -/
private theorem StartsLast.mono {h : Grammar}
    (sub : ∀ production ∈ g.productions, production ∈ h.productions) (start : h.start = g.start)
    {w : List Symbol} (last : g.StartsLast w) : h.StartsLast w := by
  obtain ⟨first, production, later, left, mem, name, before, after, others⟩ := last
  rw [← start] at name before others
  exact ⟨first, production, later, left, sub _ mem, name, before.mono sub, after.mono sub, others⟩

/-- Where the start symbol stands in no right-hand side, sentences start last. -/
theorem startsLast_of_fresh (start : g.start.isNonTerminal = true)
    (fresh : g.start ∉ g.occurrences) {w : List Symbol} (sentence : g.IsSentence w) :
    g.StartsLast w := by
  obtain ⟨first, production, later, left, right, mem, name, _, before, after, others⟩ :=
    exists_last_of_isSentence start sentence
  rcases before.ancestry start with
    ⟨rfl, _, rfl⟩ | ⟨_, parent, _, _, _, _, _, _, here, _, rhs, _, _⟩
  · rw [List.append_nil] at after
    exact ⟨first, production, later, [], mem, name, before, after, others⟩
  · exact absurd (mem_occurrences.mpr ⟨parent, here, by simp [rhs]⟩) fresh

end Grammar

namespace Machine

variable {m : Machine}

/-- The run on an input ends with its acceptance and has met no error. -/
def Accepts (m : Machine) (w : List Symbol) : Prop :=
  ∃ limit trace, m.run limit w = some (.ok trace) ∧ trace.isAccepted = true ∧
    trace.hadError = false

theorem Replays.accepts {w : List Symbol} {productions : List Production} {c : Configuration}
    (replays : m.Replays (initial w) productions c) (action : m.action c = .accept) :
    m.Accepts w := by
  obtain ⟨limit, trace, ended, accepted, clean, _⟩ := replays.exists_run action
  exact ⟨limit, trace, ended, accepted, clean⟩

theorem Replays.not_accepts {w : List Symbol} {productions : List Production} {c : Configuration}
    (replays : m.Replays (initial w) productions c) (action : m.action c = .error) :
    ¬ m.Accepts w := by
  rintro ⟨limit, trace, ended, _, clean⟩
  obtain ⟨rows, steps, _, _⟩ := replays
  have met := (hadError_iff_reaches ended).mpr ⟨_, c, steps.reaches .start, action⟩
  rw [clean] at met
  cases met

namespace Canonical

variable {goal : Symbol} {a : Automaton} (canonical : m.Canonical goal a)
include canonical

omit canonical in
/-- Before the end mark the machine acts on the lookahead. -/
private theorem action_before_endMark (stack : List Frame) (rest : List Symbol) :
    m.action ⟨stack, rest ++ [.endMark]⟩ =
      m.table.action (topState stack) (Item.lookaheadOf rest) := by
  cases rest <;> rfl

omit canonical in
/-- No symbol of a derived string is the end mark, so behind it there is nothing left. -/
private theorem eq_nil_of_lookaheadOf (avoids : m.grammar.AvoidsEndMark)
    {productions : List Production} {left behind : List Symbol} {s : Symbol}
    (derives : m.grammar.RightmostDerives productions [m.grammar.start] (left ++ s :: behind))
    (mark : Item.lookaheadOf behind = .endMark) : behind = [] := by
  cases behind with
  | nil => rfl
  | cons t behind =>
    have known : t ∈ m.grammar.symbols := derives.derives.subset_symbols
      (by simpa using Grammar.start_mem_symbols) t (by simp)
    have other := avoids t known
    rw [show t = .endMark from mark] at other
    cases other

/-- A reduction takes a right-hand side off the stack and puts the left-hand side there. -/
private theorem replays_reduce {stack : List Frame} (path : Automaton.Path m.grammar a stack)
    {rest front : List Symbol} {rule : Nat} {production : Production}
    (action : m.action ⟨stack, rest⟩ = .reduce rule)
    (named : m.grammar.rule? rule = some production)
    (spells : stack.reverse.map (·.symbol) = front ++ production.rhs) :
    ∃ below, m.Replays ⟨stack, rest⟩ [production] ⟨below, rest⟩ ∧
      Automaton.Path m.grammar a below ∧
      below.reverse.map (·.symbol) = front ++ [production.lhs] := by
  cases canonical.stepCase (c := ⟨stack, rest⟩) path with
  | @reduce rule' target item popped below action' step named' _ complete _ _ split symbols _ _ _ =>
    obtain rfl := Action.reduce.inj (action.symm.trans action')
    obtain rfl := Option.some.inj (named.symm.trans named')
    refine ⟨_, .reduce action named step, canonical.path_of_step (c := ⟨stack, rest⟩) path step, ?_⟩
    have body : item.rhs = item.before := by rw [Item.rhs, complete, List.append_nil]
    change stack = popped ++ below at split
    change stack.reverse.map (·.symbol) = front ++ item.rhs at spells
    rw [split, List.reverse_append, List.map_append, body] at spells
    have taken : popped.reverse.map (·.symbol) = item.before := by
      rw [List.map_reverse, symbols, List.reverse_reverse]
    rw [taken] at spells
    have under := List.append_cancel_right spells
    simp [under, Item.production]
  | shift action' => cases action.symm.trans action'
  | goto action' => cases action.symm.trans action'
  | accept action' => cases action.symm.trans action'
  | recover action' => cases action.symm.trans action'
  | reject action' => cases action.symm.trans action'

section Computed

variable {base : Grammar} (computed : m.grammar = base.computeFirst)
  (avoids : m.grammar.AvoidsEndMark)
include computed avoids

/-- From a path that spells the beginning of a derived string up to the end of a right-hand side, with
terminals in between, the machine shifts these and comes to the complete item of the production. -/
private theorem exists_complete {production : Production} (mem : production ∈ m.grammar.productions)
    {first : List Production} {left z : List Symbol} (ends : ∀ s ∈ z, s.isTerminal = true)
    (before : m.grammar.RightmostDerives first [m.grammar.start] (left ++ production.lhs :: z))
    {stack : List Frame} (path : Automaton.Path m.grammar a stack) {front string : List Symbol}
    (spells : stack.reverse.map (·.symbol) = front) (whole : front ++ string = left ++ production.rhs)
    (terminals : ∀ s ∈ string, s.isTerminal = true) (rest : List Symbol) :
    ∃ complete, m.Replays ⟨stack, string ++ rest⟩ [] ⟨complete, rest⟩ ∧
      Automaton.Path m.grammar a complete ∧
      complete.reverse.map (·.symbol) = left ++ production.rhs ∧
      a.HasItem (topState complete)
        ⟨production.lhs, production.rhs, [], Item.lookaheadOf z⟩ := by
  have known : ∀ s ∈ string, s ∈ m.grammar.terminals := by
    intro s hs
    have form : m.grammar.Derives [m.grammar.start] (left ++ production.rhs ++ z) :=
      before.derives.tail (.replace mem left z)
    refine canonical.mem_terminals (form.subset_symbols
      (by simpa using Grammar.start_mem_symbols) s ?_) (terminals s hs)
    rw [← whole]
    simp [hs]
  obtain ⟨id, walk, initial, _⟩ :=
    canonical.exists_hasItem_of_rightmostDerives computed avoids mem ends before
  rw [Item.initial, ← List.append_nil production.rhs] at initial
  obtain ⟨target, walk', complete⟩ := canonical.exists_walk?_of_hasItem initial
  have whole' : a.walk? 0 (left ++ production.rhs) = some target :=
    (Automaton.walk?_append walk production.rhs).trans walk'
  have further : a.walk? (topState stack) string = some target := by
    rw [← Automaton.walk?_append path.walk?, spells, whole, whole']
  obtain ⟨taken, symbols, replays, longer⟩ := canonical.replays_walk path known further rest
  have spelled : (taken ++ stack).reverse.map (·.symbol) = left ++ production.rhs := by
    rw [List.reverse_append, List.map_append, spells, symbols, whole]
  have top : topState (taken ++ stack) = target := by
    have reached := longer.walk?
    rw [spelled, whole'] at reached
    exact (Option.some.inj reached).symm
  exact ⟨_, replays, longer, spelled, by simpa [top] using complete⟩

variable (free : a.ConflictFree)
include free

/-- A complete item that is not the start symbol's is reduced, unless nothing stands behind its
left-hand side and the machine accepts. -/
private theorem accepts_or_reduces {production : Production}
    (mem : production ∈ m.grammar.productions) (other : production.lhs ≠ m.grammar.start)
    {first : List Production} {left z : List Symbol} (ends : ∀ s ∈ z, s.isTerminal = true)
    (before : m.grammar.RightmostDerives first [m.grammar.start] (left ++ production.lhs :: z))
    {stack : List Frame} (path : Automaton.Path m.grammar a stack)
    (spells : stack.reverse.map (·.symbol) = left ++ production.rhs)
    (here : a.HasItem (topState stack)
      ⟨production.lhs, production.rhs, [], Item.lookaheadOf z⟩) :
    (z = [] ∧ m.action ⟨stack, z ++ [.endMark]⟩ = .accept) ∨
    ∃ below, m.Replays ⟨stack, z ++ [.endMark]⟩ [production] ⟨below, z ++ [.endMark]⟩ ∧
      Automaton.Path m.grammar a below ∧
      below.reverse.map (·.symbol) = left ++ [production.lhs] := by
  obtain ⟨_, _, _, known⟩ :=
    canonical.exists_hasItem_of_rightmostDerives computed avoids mem ends before
  have action := action_before_endMark (m := m) stack z
  rcases canonical.action_of_complete_other free here rfl known other with
    ⟨mark, accepts⟩ | ⟨rule, reduces, named⟩
  · exact .inl ⟨eq_nil_of_lookaheadOf avoids before mark, action.trans accepts⟩
  · exact .inr (canonical.replays_reduce path (action.trans reduces)
      (by simpa [Item.production, Item.rhs] using named) spells)

/-- Where there are no conflicts, the machine follows a rightmost derivation backwards to a form in
which it completes a production, if no production of the start symbol is used behind that form: it has
come to the complete item of the production, unless it has accepted before, with no rest of the input
behind the production. -/
theorem replays_of_rightmostDerives {later : List Production} {production : Production}
    (mem : production ∈ m.grammar.productions) {first : List Production} {left z w : List Symbol}
    (ends : ∀ s ∈ z, s.isTerminal = true)
    (before : m.grammar.RightmostDerives first [m.grammar.start] (left ++ production.lhs :: z))
    (after : m.grammar.RightmostDerives later (left ++ production.rhs ++ z) w)
    (terminals : ∀ s ∈ w, s.isTerminal = true) (others : ∀ q ∈ later, q.lhs ≠ m.grammar.start) :
    (z = [] ∧ ∃ productions c, m.Replays ⟨[], w ++ [.endMark]⟩ productions c ∧
      m.action c = .accept) ∨
    ∃ stack, m.Replays ⟨[], w ++ [.endMark]⟩ later.reverse ⟨stack, z ++ [.endMark]⟩ ∧
      Automaton.Path m.grammar a stack ∧
      stack.reverse.map (·.symbol) = left ++ production.rhs ∧
      a.HasItem (topState stack)
        ⟨production.lhs, production.rhs, [], Item.lookaheadOf z⟩ := by
  -- The induction is on the productions behind the form: the first of them is reduced last.
  induction later generalizing production first left z with
  | nil =>
    generalize form : left ++ production.rhs ++ z = v at after
    cases after with
    | refl =>
      refine .inr ?_
      have visible : ∀ s ∈ left ++ production.rhs, s.isTerminal = true := fun s hs =>
        terminals s (form ▸ List.mem_append_left z hs)
      obtain ⟨complete, found⟩ := canonical.exists_complete computed avoids mem ends before .nil rfl
        (List.nil_append _) visible (z ++ [.endMark])
      refine ⟨complete, ?_⟩
      rw [← form, List.append_assoc]
      exact found
  | cons q later ih =>
    obtain ⟨other, others⟩ := List.forall_mem_cons.mp others
    generalize form : left ++ production.rhs ++ z = v at after
    cases after with
    | @head _ left' z' _ _ mem' ends' rest =>
      have before' : m.grammar.RightmostDerives (first ++ [production]) [m.grammar.start]
          (left' ++ q.lhs :: z') := by
        rw [← form]
        exact before.trans (.head mem ends (.refl _))
      -- what stands behind the non-terminal is a part of this right-hand side, then its rest
      obtain ⟨y, whole, rfl⟩ : ∃ y, left ++ production.rhs = left' ++ q.lhs :: y ∧ z' = y ++ z := by
        rcases Grammar.cases_of_append_eq form with inside | ⟨y, _, tail⟩
        · exact inside
        · have terminal := ends q.lhs (by simp [tail])
          rw [Symbol.isTerminal_eq_not, canonical.lhs q mem'] at terminal
          cases terminal
      rcases ih mem' ends' before' rest others with ⟨nothing, accepted⟩ |
        ⟨stack, replays, path, spells, here⟩
      · exact .inl ⟨(List.append_eq_nil_iff.mp nothing).2, accepted⟩
      · rcases canonical.accepts_or_reduces computed avoids free mem' other ends' before' path spells
          here with ⟨nothing, accepts⟩ | ⟨below, reduced, path', spells'⟩
        · exact .inl ⟨(List.append_eq_nil_iff.mp nothing).2, _, _, replays, accepts⟩
        · obtain ⟨complete, shifted, found⟩ := canonical.exists_complete computed avoids mem ends before
            path' spells' (by simp [whole]) (fun s hs => ends' s (List.mem_append_left z hs))
            (z ++ [.endMark])
          rw [← List.append_assoc] at shifted
          refine .inr ⟨complete, ?_, found⟩
          simpa using (replays.trans reduced).trans shifted

/-- Where there are no conflicts, the last use of the start symbol's production in a rightmost
derivation decides: the machine accepts if nothing stands behind it, and otherwise it errs. -/
private theorem accepts_iff_of_rightmostDerives {first later : List Production}
    {production : Production} (mem : production ∈ m.grammar.productions)
    (start : production.lhs = m.grammar.start) {left z w : List Symbol}
    (ends : ∀ s ∈ z, s.isTerminal = true)
    (before : m.grammar.RightmostDerives first [m.grammar.start] (left ++ m.grammar.start :: z))
    (after : m.grammar.RightmostDerives later (left ++ production.rhs ++ z) w)
    (terminals : ∀ s ∈ w, s.isTerminal = true) (others : ∀ q ∈ later, q.lhs ≠ m.grammar.start) :
    m.Accepts w ↔ z = [] := by
  have before : m.grammar.RightmostDerives first [m.grammar.start]
      (left ++ production.lhs :: z) := by
    rw [start]
    exact before
  have whole : m.grammar.Derives [m.grammar.start] w :=
    (before.trans (.head mem ends after)).derives
  have completed : Machine.complete w = w ++ [.endMark] := Machine.complete_of_visible fun s hs =>
    avoids s (whole.subset_symbols (by simpa using Grammar.start_mem_symbols) s hs)
  have initial : (initial w : Configuration) = ⟨[], w ++ [.endMark]⟩ := by
    rw [Machine.initial, completed]
  rcases canonical.replays_of_rightmostDerives computed avoids free mem ends before after terminals
    others with ⟨nothing, productions, c, replays, accepts⟩ | ⟨stack, replays, _, _, here⟩
  · rw [← initial] at replays
    exact ⟨fun _ => nothing, fun _ => replays.accepts accepts⟩
  · rw [← initial] at replays
    have action := action_before_endMark (m := m) stack z
    rcases canonical.action_of_complete_start free here rfl start with
      ⟨mark, accepts⟩ | ⟨other, errs⟩
    · exact ⟨fun _ => eq_nil_of_lookaheadOf avoids before mark,
        fun _ => replays.accepts (action.trans accepts)⟩
    · refine ⟨fun accepted => absurd accepted (replays.not_accepts (action.trans errs)), ?_⟩
      rintro rfl
      exact absurd rfl other

/-- Where there are no conflicts, the machine accepts the sentences that start last. -/
private theorem accepts_iff {w : List Symbol} (sentence : m.grammar.IsSentence w) :
    m.Accepts w ↔ m.grammar.StartsLast w := by
  constructor
  · intro accepted
    obtain ⟨first, production, later, left, right, mem, name, ends, before, after, others⟩ :=
      Grammar.exists_last_of_isSentence canonical.isNonTerminal_start sentence
    obtain rfl := (canonical.accepts_iff_of_rightmostDerives computed avoids free mem name ends
      before after sentence.1 others).mp accepted
    rw [List.append_nil] at after
    exact ⟨first, production, later, left, mem, name, before, after, others⟩
  · rintro ⟨first, production, later, left, mem, name, before, after, others⟩
    rw [← List.append_nil (left ++ production.rhs)] at after
    exact (canonical.accepts_iff_of_rightmostDerives computed avoids free mem name
      (List.forall_mem_nil _) before after sentence.1 others).mpr rfl

end Computed

end Canonical

/-- The shape that is checked of an augmented grammar decides what is accepted only together with the
derivations. Where the automaton has no conflicts, a sentence is accepted without an error exactly if
it has a rightmost derivation in which the start symbol, when it is replaced for the last time, is the
last symbol; so every sentence is where the start symbol stands in no right-hand side. -/
theorem accepts_iff_startsLast {g : Grammar} (augmented : g.isAugmented = true)
    (lhs : g.LeftHandSidesNonTerminal) (kinds : g.OneKindPerName) (avoids : g.AvoidsEndMark) :
    ∃ a t, Automaton.ofGrammar g.numberRules.computeFirst = .ok a ∧
      ActionTable.ofAutomaton g.numberRules.computeFirst a = .ok t ∧
      (a.ConflictFree → ∀ w, g.IsSentence w →
        ((⟨g.numberRules.computeFirst, t⟩ : Machine).Accepts w ↔ g.StartsLast w) ∧
        (g.start ∉ g.occurrences → (⟨g.numberRules.computeFirst, t⟩ : Machine).Accepts w)) := by
  obtain ⟨goal, a, t, automaton, table, canonical⟩ := exists_canonical
    (g := g.numberRules.computeFirst) augmented lhs kinds
    (Grammar.holdsTerminals_firstTable g.numberRules) rfl
  refine ⟨a, t, automaton, table, fun free w sentence => ?_⟩
  have start : g.start.isNonTerminal = true := canonical.isNonTerminal_start
  have same : ∀ production ∈ g.productions,
      production ∈ g.numberRules.computeFirst.productions := fun _ mem => mem
  have derived : g.numberRules.computeFirst.IsSentence w :=
    ⟨sentence.1, sentence.2.mono same⟩
  have last : g.numberRules.computeFirst.StartsLast w ↔ g.StartsLast w :=
    ⟨@Grammar.StartsLast.mono g.numberRules.computeFirst g (fun _ mem => mem) rfl w,
      Grammar.StartsLast.mono same rfl⟩
  have spec : (⟨g.numberRules.computeFirst, t⟩ : Machine).Accepts w ↔ g.StartsLast w :=
    (canonical.accepts_iff rfl avoids free derived).trans last
  exact ⟨spec, fun fresh => spec.mpr (Grammar.startsLast_of_fresh start fresh sentence)⟩

/-- A start symbol that comes back between brackets: `S -> A`, `A -> ( S ) | a`. -/
def enclosing : Grammar :=
  ((Grammar.ofStart (.nonTerminal "S")).push (.nonTerminal "S") [.nonTerminal "A"]).pushAll
    (.nonTerminal "A") [[.terminal "(", .nonTerminal "S", .terminal ")"], [.terminal "a"]]

private theorem derives_enclosing : enclosing.Derives [enclosing.start] [.nonTerminal "A"] ∧
    enclosing.Derives [.nonTerminal "A"] [.terminal "(", enclosing.start, .terminal ")"] ∧
    enclosing.Derives [.nonTerminal "A"] [.terminal "a"] :=
  ⟨@Grammar.Derives.of_mem enclosing ⟨enclosing.start, [.nonTerminal "A"]⟩ (by decide +kernel),
    @Grammar.Derives.of_mem enclosing
      ⟨.nonTerminal "A", [.terminal "(", enclosing.start, .terminal ")"]⟩ (by decide +kernel),
    @Grammar.Derives.of_mem enclosing ⟨.nonTerminal "A", [.terminal "a"]⟩ (by decide +kernel)⟩

theorem accepts_enclosing : enclosing.isAugmented = true ∧ enclosing.LeftHandSidesNonTerminal ∧
    enclosing.OneKindPerName ∧ enclosing.AvoidsEndMark ∧
    ∃ a t, Automaton.ofGrammar enclosing.numberRules.computeFirst = .ok a ∧
      ActionTable.ofAutomaton enclosing.numberRules.computeFirst a = .ok t ∧ a.ConflictFree ∧
      (⟨enclosing.numberRules.computeFirst, t⟩ : Machine).Accepts [.terminal "a"] := by
  have augmented : enclosing.isAugmented = true := by decide +kernel
  have lhs : enclosing.LeftHandSidesNonTerminal := by decide +kernel
  have kinds : enclosing.OneKindPerName := by decide +kernel
  have avoids : enclosing.AvoidsEndMark := by decide +kernel
  obtain ⟨a, t, automaton, table, accepts⟩ := accepts_iff_startsLast augmented lhs kinds avoids
  have computed : (Automaton.ofGrammar enclosing.numberRules.computeFirst).toOption.any
      (fun a => decide a.ConflictFree) = true := by decide +kernel
  rw [automaton] at computed
  have free : a.ConflictFree := of_decide_eq_true computed
  have first : enclosing.RightmostDerives [] [enclosing.start] ([] ++ [enclosing.start]) := .refl _
  have later : enclosing.RightmostDerives [⟨.nonTerminal "A", [.terminal "a"]⟩]
      ([] ++ [.nonTerminal "A"]) [.terminal "a"] :=
    @Grammar.RightmostDerives.head enclosing ⟨.nonTerminal "A", [.terminal "a"]⟩ [] [] _ _
      (by decide +kernel) (by decide) (.refl _)
  have last : enclosing.StartsLast [.terminal "a"] :=
    ⟨[], ⟨.nonTerminal "S", [.nonTerminal "A"]⟩, _, [], by decide +kernel, rfl, first, later,
      by decide +kernel⟩
  have sentence : enclosing.IsSentence [.terminal "a"] :=
    ⟨by decide, derives_enclosing.1.trans later.derives⟩
  exact ⟨augmented, lhs, kinds, avoids, a, t, automaton, table, free,
    ((accepts free _ sentence).1).mpr last⟩

/-- Behind `( A` the table has no action on the closing bracket, so that `( a )` is an error. -/
theorem not_accepts_enclosed : enclosing.isAugmented = true ∧ enclosing.LeftHandSidesNonTerminal ∧
    enclosing.OneKindPerName ∧ enclosing.AvoidsEndMark ∧
    enclosing.IsSentence [.terminal "(", .terminal "a", .terminal ")"] ∧
    ∃ a t, Automaton.ofGrammar enclosing.numberRules.computeFirst = .ok a ∧
      ActionTable.ofAutomaton enclosing.numberRules.computeFirst a = .ok t ∧ a.ConflictFree ∧
      ¬ (⟨enclosing.numberRules.computeFirst, t⟩ : Machine).Accepts
        [.terminal "(", .terminal "a", .terminal ")"] := by
  have augmented : enclosing.isAugmented = true := by decide +kernel
  have lhs : enclosing.LeftHandSidesNonTerminal := by decide +kernel
  have kinds : enclosing.OneKindPerName := by decide +kernel
  obtain ⟨opens, encloses, closes⟩ := derives_enclosing
  have derives := (opens.trans encloses).trans
    ((opens.trans closes).append [.terminal "("] [.terminal ")"])
  obtain ⟨_, a, t, automaton, table, _⟩ := exists_canonical
    (g := enclosing.numberRules.computeFirst) augmented lhs kinds
    (Grammar.holdsTerminals_firstTable enclosing.numberRules) rfl
  have computed : ((Automaton.ofGrammar enclosing.numberRules.computeFirst).toOption.any fun a =>
      decide a.ConflictFree &&
        (ActionTable.ofAutomaton enclosing.numberRules.computeFirst a).toOption.any fun t =>
          (run ⟨enclosing.numberRules.computeFirst, t⟩ 9
            [.terminal "(", .terminal "a", .terminal ")"]).any fun result =>
              result.toOption.any Trace.hadError) = true := by decide +kernel
  rw [automaton] at computed
  obtain ⟨free, computed⟩ := Bool.and_eq_true_iff.mp computed
  rw [table] at computed
  obtain ⟨trace, ended, met⟩ := exists_trace_of_any computed
  refine ⟨augmented, lhs, kinds, by decide +kernel, ⟨by decide, derives⟩, a, t, automaton, table,
    of_decide_eq_true free, ?_⟩
  rintro ⟨limit, other, ended', _, clean⟩
  cases run_unique ended ended'
  rw [clean] at met
  cases met

end Machine

end CanonicalLR
