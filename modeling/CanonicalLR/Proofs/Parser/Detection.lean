import CanonicalLR.Proofs.Parser.Completeness
import CanonicalLR.Proofs.Parser.Viability

/-!
Errors are detected at once. In a grammar whose non-terminals all derive terminal strings, and whose
automaton has no conflicts, a run on terminals that has met no error yet acts on the current symbol
exactly if some sentence goes on with it after the part that has been taken. In one direction the items
on top of the stack are valid; in the other the run on such a sentence, which meets no error, has been
the same so far.
-/

set_option autoImplicit false
set_option relaxedAutoImplicit false

namespace CanonicalLR

/-- Some sentence goes on with a symbol after a string or, for the end mark, ends there. -/
def Grammar.Continues (g : Grammar) (u : List Symbol) (a : Symbol) : Prop :=
  (a = .endMark ∧ g.IsSentence u) ∨ ∃ z, g.IsSentence (u ++ a :: z)

namespace Parser

namespace Canonical

variable {g : Grammar} {p : Parser} (canonical : p.Canonical g)
include canonical

/-- The terminal strings that the fresh start symbol derives are sentences. -/
theorem isSentence_of_derives {w : List Symbol} (terminals : ∀ s ∈ w, s.isTerminal = true)
    (derives : p.machine.grammar.Derives [p.machine.grammar.start] w) : g.IsSentence w := by
  refine ⟨terminals, ?_⟩
  have same : p.machine.grammar = g.prepare := canonical.prepared
  rw [same] at derives
  rcases derives.of_freshStart canonical.named with rfl | derives
  · cases terminals g.freshStart (List.mem_singleton_self _)
  · exact derives

omit canonical in
/-- A sentence is completed by an end mark. -/
theorem complete_of_isSentence (avoids : g.AvoidsEndMark) {w : List Symbol}
    (sentence : g.IsSentence w) : Machine.complete w = w ++ [.endMark] :=
  Machine.complete_of_visible fun s mem => avoids s
    (sentence.2.subset_symbols (by simpa using Grammar.start_mem_symbols) s mem)

omit canonical in
private theorem exists_rest_of_continues (avoids : g.AvoidsEndMark) {u : List Symbol} {a : Symbol}
    (continues : g.Continues u a) : ∃ w rest, g.IsSentence w ∧
      Machine.complete w = u ++ rest ∧ Item.lookaheadOf rest = a := by
  rcases continues with ⟨rfl, sentence⟩ | ⟨z, sentence⟩
  · exact ⟨u, [.endMark], sentence, complete_of_isSentence avoids sentence, rfl⟩
  · refine ⟨u ++ a :: z, a :: z ++ [.endMark], sentence, ?_, rfl⟩
    rw [complete_of_isSentence avoids sentence, List.append_assoc]

theorem occurs_of_take {c : Configuration} {target : Nat}
    (acts : p.machine.action c = .shift target ∨ p.machine.action c = .goto target) :
    c.current ∈ p.machine.grammar.occurrences := by
  rcases acts with acts | acts
  · exact (Grammar.mem_terminals.mp (canonical.machine.transition?_of_shift acts).1).1
  · exact (canonical.machine.transition?_of_goto acts).1

/-- A run depends on nothing but the part of the input that it has taken and the current symbol. -/
theorem reaches_congr (avoids : g.AvoidsEndMark) {w : List Symbol} {n : Nat} {c : Configuration}
    (reaches : p.machine.Reaches w n c) : ∃ u, Machine.complete w = u ++ c.input ∧
      ∀ w' rest, Machine.complete w' = u ++ rest → Item.lookaheadOf rest = c.current →
        p.machine.Reaches w' n ⟨c.stack, rest⟩ := by
  induction reaches with
  | start =>
    refine ⟨[], rfl, fun w' rest whole _ => ?_⟩
    obtain rfl : Machine.complete w' = rest := whole
    exact .start
  | @next n c c' reaches next ih =>
    obtain ⟨u, whole, others⟩ := ih
    rcases Machine.step_congr next with ⟨same, steps⟩ | ⟨target, acts, rfl, steps⟩
    · refine ⟨u, by rw [whole, same], fun w' rest whole' current => ?_⟩
      have current' : Item.lookaheadOf rest = c.current := by
        rw [Configuration.current, ← same]
        exact current
      exact (others w' rest whole' current').next (steps rest current')
    · obtain ⟨first, _⟩ := canonical.input_of_occurs avoids (canonical.occurs_of_take acts)
      refine ⟨u ++ [c.current], ?_, fun w' rest whole' _ => ?_⟩
      · rw [whole, first, List.append_assoc]
        rfl
      · rw [List.append_assoc] at whole'
        exact (others w' (c.current :: rest) whole' rfl).next (steps (c.current :: rest) rfl)

section ConflictFree

variable (avoids : g.AvoidsEndMark) (free : p.automaton.ConflictFree)
include avoids free

/-- The run on a sentence meets no error, and it halts. -/
theorem exists_bound_of_isSentence {w : List Symbol} (sentence : g.IsSentence w) :
    ∃ limit, ∀ n c, p.machine.Reaches w n c → n ≤ limit ∧ p.machine.action c ≠ .error := by
  obtain ⟨productions, expands⟩ := sentence.2.exists_expands sentence.1
  obtain ⟨limit, trace, parsed, _, clean, _⟩ :=
    canonical.exists_run_of_expands avoids free expands
  obtain ⟨rows, d, steps, halts, all⟩ := Machine.steps_of_run parsed
  refine ⟨rows.length, fun n c reaches => ?_⟩
  obtain ⟨bound, mem⟩ := reaches.mem_rows steps halts
  rw [← all] at mem
  exact ⟨bound, Trace.hadError_eq_false_iff.mp clean _ mem⟩

/-- Where a sentence goes on with the current symbol, there is no error. -/
theorem action_ne_error_of_continues {w u : List Symbol} {n : Nat} {c : Configuration}
    (reaches : p.machine.Reaches w n c) (whole : Machine.complete w = u ++ c.input)
    (continues : g.Continues u c.current) : p.machine.action c ≠ .error := by
  obtain ⟨u', whole', others⟩ := canonical.reaches_congr avoids reaches
  obtain rfl : u' = u := List.append_cancel_right (whole'.symm.trans whole)
  obtain ⟨w', rest, sentence, complete, current⟩ := exists_rest_of_continues avoids continues
  obtain ⟨_, clean⟩ := canonical.exists_bound_of_isSentence avoids free sentence
  have other := (clean _ _ (others w' rest complete current)).2
  change p.machine.table.action c.top (Item.lookaheadOf rest) ≠ .error at other
  rwa [current] at other

end ConflictFree

section Productive

variable (avoids : g.AvoidsEndMark) (productive : g.Productive)
include avoids productive

/-- An item on top of a path leads to sentences: what the path derives, then what is derived from
behind the dot, then what stands behind the item. -/
private theorem exists_isSentence_of_hasItem {stack : List Frame}
    (path : Automaton.Path p.machine.grammar p.automaton stack) {u : List Symbol}
    (terminals : ∀ s ∈ u, s.isTerminal = true)
    (derives : g.Derives (stack.reverse.map (·.symbol)) u) {item : Item}
    (here : p.automaton.HasItem (topState stack) item) :
    ∃ behind, item.lookahead = Item.lookaheadOf behind ∧ ∀ w, (∀ s ∈ w, s.isTerminal = true) →
      p.machine.grammar.Derives item.after w → g.IsSentence (u ++ w ++ behind) := by
  obtain ⟨behind, stands, lookahead⟩ :=
    Item.valid_iff_stands.mp (canonical.valid_of_path avoids productive path here)
  refine ⟨behind, lookahead, fun w word after => ?_⟩
  obtain ⟨_, form⟩ := stands.rightmostDerives
  have prepared := derives.mono fun _ mem => canonical.productions_subset mem
  refine canonical.isSentence_of_derives ?_
    (form.derives.trans ((prepared.concat after).concat .refl))
  simp only [List.forall_mem_append]
  exact ⟨⟨terminals, word⟩, stands.terminals⟩

/-- Along a transition on a terminal, a sentence goes on with it. -/
private theorem continues_of_transition? {stack : List Frame}
    (path : Automaton.Path p.machine.grammar p.automaton stack) {u : List Symbol}
    (terminals : ∀ s ∈ u, s.isTerminal = true)
    (derives : g.Derives (stack.reverse.map (·.symbol)) u) {a : Symbol} {target : Nat}
    (kind : a.isTerminal = true) (occurs : a ∈ p.machine.grammar.occurrences)
    (edge : p.automaton.transition? (topState stack) a = some target) : g.Continues u a := by
  obtain ⟨item, rest, here, after⟩ := canonical.machine.exists_next_of_transition? edge
    (Grammar.occurrences_subset_symbols occurs)
  have belongs := (canonical.machine.belongs here).production
  have inside : ∀ s ∈ rest, s.isNonTerminal = true → s ∈ p.machine.grammar.symbols :=
    fun s hs _ => Grammar.rhs_subset_symbols belongs
      (by simp [Item.production, Item.rhs, after, hs])
  obtain ⟨w, word, later⟩ := canonical.exists_derives productive inside
  obtain ⟨behind, _, sentences⟩ :=
    canonical.exists_isSentence_of_hasItem avoids productive path terminals derives here
  have single : p.machine.grammar.Derives [a] [a] := .refl
  have sentence := sentences (a :: w) (List.forall_mem_cons.mpr ⟨kind, word⟩)
    (after ▸ single.concat later)
  exact .inr ⟨w ++ behind, by simpa using sentence⟩

/-- Behind a complete item a sentence goes on with its lookahead. -/
private theorem continues_of_complete {stack : List Frame}
    (path : Automaton.Path p.machine.grammar p.automaton stack) {u : List Symbol}
    (terminals : ∀ s ∈ u, s.isTerminal = true)
    (derives : g.Derives (stack.reverse.map (·.symbol)) u) {item : Item}
    (here : p.automaton.HasItem (topState stack) item) (complete : item.after = []) :
    g.Continues u item.lookahead := by
  obtain ⟨behind, lookahead, sentences⟩ :=
    canonical.exists_isSentence_of_hasItem avoids productive path terminals derives here
  have sentence := sentences [] (List.forall_mem_nil _) (complete ▸ .refl)
  cases behind with
  | nil => exact .inl ⟨lookahead, by simpa using sentence⟩
  | cons t z =>
    obtain rfl : item.lookahead = t := lookahead
    exact .inr ⟨z, by simpa using sentence⟩

/-- Where the table acts, a sentence goes on with the current symbol after any terminal string that
the stack derives. -/
theorem continues_of_action {c : Configuration}
    (path : Automaton.Path p.machine.grammar p.automaton c.stack)
    (kind : c.current.isTerminal = true) {u : List Symbol}
    (terminals : ∀ s ∈ u, s.isTerminal = true) (derives : g.Derives c.symbols u)
    (acts : p.machine.action c ≠ .error) : g.Continues u c.current := by
  rcases canonical.machine.origin_of_action acts with
    ⟨target, occurs, edge, _⟩ | ⟨item, here, complete, entered⟩
  · exact canonical.continues_of_transition? avoids productive path terminals derives kind occurs edge
  · have current : c.current = item.lookahead := by
      rcases entered with ⟨start, mark, _⟩ | ⟨_, same, _⟩
      · rw [mark,
          canonical.machine.lookahead_of_start canonical.start_not_mem_occurrences here start]
      · exact same
    rw [current]
    exact canonical.continues_of_complete avoids productive path terminals derives here complete

end Productive

/-- What a run on terminals has taken before a configuration, and the symbols on the stack derive. -/
structure Taken (g : Grammar) (p : Parser) (w : List Symbol) (c : Configuration) (u : List Symbol) :
    Prop where
  whole : w ++ [.endMark] = u ++ c.current :: c.input.tail
  input : c.input = c.current :: c.input.tail
  visible : ∀ s ∈ u, s.isEndMark = false
  derives : g.Derives c.symbols u
  path : Automaton.Path p.machine.grammar p.automaton c.stack

section Word

variable {w : List Symbol} (word : ∀ s ∈ w, s.isTerminal = true ∧ s.isEndMark = false)
include word

omit canonical in
theorem Taken.isTerminal {c : Configuration} {u : List Symbol} (taken : Taken g p w c u) :
    (∀ s ∈ u, s.isTerminal = true) ∧ c.current.isTerminal = true := by
  have all : ∀ s ∈ u ++ c.current :: c.input.tail, s.isTerminal = true := by
    rw [← taken.whole]
    exact List.forall_mem_append.mpr
      ⟨fun s mem => (word s mem).1, List.forall_mem_singleton.mpr rfl⟩
  exact ⟨fun s mem => all s (List.mem_append_left _ mem),
    all _ (List.mem_append_right _ (List.mem_cons_self ..))⟩

omit canonical in
theorem Taken.complete {c : Configuration} {u : List Symbol} (taken : Taken g p w c u) :
    Machine.complete w = u ++ c.input := by
  rw [Machine.complete_of_visible fun s mem => (word s mem).2, taken.whole, ← taken.input]

/-- Before the first error the symbols on the stack derive what has been taken. -/
theorem exists_taken (avoids : g.AvoidsEndMark) {n : Nat} {c : Configuration}
    (reaches : p.machine.Reaches w n c)
    (clean : ∀ k < n, ∀ d, p.machine.Reaches w k d → p.machine.action d ≠ .error) :
    ∃ u, Taken g p w c u := by
  obtain ⟨rows, steps, errorless⟩ := reaches.exists_clean_steps clean
  obtain ⟨u, takes⟩ := canonical.exists_takes_of_steps avoids steps .nil errorless
  have input := Machine.input_eq_of_complete takes.input takes.visible
  have whole : w ++ [.endMark] = u ++ c.input := by
    rw [← Machine.complete_of_visible fun s mem => (word s mem).2]
    exact takes.input
  have back : g.RewritesAt (fun _ => True) (p.machine.reductions rows).reverse c.symbols ([] ++ u) :=
    takes.rewrites fun _ _ => trivial
  exact ⟨u, whole.trans (by rw [← input]), input, takes.visible, back.derives,
    canonical.machine.path_of_reaches reaches⟩

variable (avoids : g.AvoidsEndMark) (productive : g.Productive) (free : p.automaton.ConflictFree)
include avoids productive free

/-- Before the first error, the table acts on the current symbol exactly if a sentence goes on with
it. -/
theorem action_ne_error_iff {n : Nat} {c : Configuration} (reaches : p.machine.Reaches w n c)
    {u : List Symbol} (taken : Taken g p w c u) :
    p.machine.action c ≠ .error ↔ g.Continues u c.current := by
  obtain ⟨terminals, kind⟩ := taken.isTerminal word
  exact ⟨canonical.continues_of_action avoids productive taken.path kind terminals taken.derives,
    canonical.action_ne_error_of_continues avoids free reaches (taken.complete word)⟩

/-- A run that goes on without errors takes the current symbol some time: until then it is the run on
a sentence that continues with this symbol, and that one ends. -/
private theorem exists_shorter (clean : ∀ n c, p.machine.Reaches w n c → p.machine.action c ≠ .error)
    (endless : ∀ n c, p.machine.Reaches w n c → ∃ d, p.machine.step c = .next d) {n : Nat}
    {c : Configuration} (reaches : p.machine.Reaches w n c) :
    ∃ k d, p.machine.Reaches w k d ∧ d.input.length < c.input.length := by
  obtain ⟨u, taken⟩ := canonical.exists_taken word avoids reaches fun k _ d => clean k d
  have continues := (canonical.action_ne_error_iff word avoids productive free reaches taken).mp
    (clean n c reaches)
  obtain ⟨w', rest, sentence, complete, current⟩ := exists_rest_of_continues avoids continues
  obtain ⟨limit, bounded⟩ := canonical.exists_bound_of_isSentence avoids free sentence
  obtain ⟨d, later, shorter⟩ := reaches.exists_later endless (limit + 1)
  by_cases same : d.input.length = c.input.length
  · obtain ⟨u', whole, others⟩ := canonical.reaches_congr avoids later
    obtain ⟨rfl, inputs⟩ := List.append_inj' ((taken.complete word).symm.trans whole) same.symm
    have sameCurrent : Item.lookaheadOf rest = d.current := by
      rw [current, Configuration.current, Configuration.current, inputs]
    have bound := (bounded _ _ (others w' rest complete sameCurrent)).1
    omega
  · exact ⟨_, d, later, by omega⟩

/-- A run that never meets an error halts. -/
theorem exists_halt (clean : ∀ n c, p.machine.Reaches w n c → p.machine.action c ≠ .error) :
    ∃ n c verdict, p.machine.Reaches w n c ∧ p.machine.step c = .halt verdict := by
  by_contra unended
  have endless : ∀ n c, p.machine.Reaches w n c → ∃ d, p.machine.step c = .next d := by
    intro n c reaches
    cases step : p.machine.step c with
    | next d => exact ⟨d, rfl⟩
    | halt verdict => exact absurd ⟨n, c, verdict, reaches, step⟩ unended
    | fail defect =>
      exact absurd step
        (canonical.machine.step_ne_fail (canonical.machine.path_of_reaches reaches) defect)
  have never : ∀ length n c, p.machine.Reaches w n c → c.input.length = length → False := by
    intro length
    induction length using Nat.strongRecOn with
    | ind length ih =>
      rintro n c reaches rfl
      obtain ⟨k, d, later, shorter⟩ :=
        canonical.exists_shorter word avoids productive free clean endless reaches
      exact ih _ shorter k d later rfl
  exact never _ 0 _ .start rfl

/-- Without an error the run accepts a sentence. -/
theorem isSentence_of_clean (clean : ∀ n c, p.machine.Reaches w n c → p.machine.action c ≠ .error) :
    g.IsSentence w := by
  obtain ⟨n, c, verdict, reaches, halts⟩ :=
    canonical.exists_halt word avoids productive free clean
  obtain ⟨u, taken⟩ := canonical.exists_taken word avoids reaches fun k _ d => clean k d
  have action : p.machine.action c = .accept :=
    ((Machine.action_of_halt halts).resolve_right fun rejects => clean n c reaches rejects.2).2
  obtain ⟨symbols, mark⟩ := canonical.symbols_of_accept taken.path action
  have same : w = u := by
    have contents := congrArg Machine.content taken.whole
    rwa [mark, Machine.content_append (fun s mem => (word s mem).2) rfl,
      Machine.content_append taken.visible rfl] at contents
  have derives := taken.derives
  rw [symbols, ← same] at derives
  exact ⟨fun s mem => (word s mem).1, derives⟩

/-- The step before the first error, if there is one, is a shift: a reduction would leave the same
symbol to go on with. -/
theorem exists_shift_of_first_error {n : Nat} {c : Configuration}
    (reaches : p.machine.Reaches w (n + 1) c) (error : p.machine.action c = .error)
    (clean : ∀ k < n + 1, ∀ d, p.machine.Reaches w k d → p.machine.action d ≠ .error) :
    ∃ d target, p.machine.Reaches w n d ∧ p.machine.action d = .shift target ∧
      c = d.take target ∧ d.current ∈ p.machine.grammar.terminals := by
  obtain ⟨u, taken⟩ := canonical.exists_taken word avoids reaches clean
  have wrong : ¬ g.Continues u c.current := fun continues =>
    (canonical.action_ne_error_iff word avoids productive free reaches taken).mpr continues error
  cases reaches with
  | @next _ d _ before next =>
    obtain ⟨v, taken'⟩ := canonical.exists_taken word avoids before
      fun k lt e earlier => clean k (by omega) e earlier
    have acts := clean n (Nat.lt_succ_self n) d before
    cases canonical.machine.stepCase taken'.path with
    | @shift target action step mem _ =>
      cases next.symm.trans step
      exact ⟨d, target, before, action, rfl, mem⟩
    | goto _ _ _ kind _ =>
      have terminal := (taken'.isTerminal word).2
      rw [Symbol.isTerminal_eq_not, kind] at terminal
      cases terminal
    | reduce _ step =>
      cases next.symm.trans step
      have same : v = u := List.append_cancel_right
        ((taken'.complete word).symm.trans (taken.complete word))
      rw [← same] at wrong
      exact absurd ((canonical.action_ne_error_iff word avoids productive free before taken').mp acts)
        wrong
    | accept _ step => cases next.symm.trans step
    | recover action => exact absurd action acts
    | reject action => exact absurd action acts

/-- Up to the first error what has been taken is the beginning of a sentence. -/
theorem exists_isSentence_append {n : Nat} {c : Configuration} (reaches : p.machine.Reaches w n c)
    (error : p.machine.action c = .error)
    (clean : ∀ k < n, ∀ d, p.machine.Reaches w k d → p.machine.action d ≠ .error)
    {u : List Symbol} (taken : Taken g p w c u) : ∃ z, g.IsSentence (u ++ z) := by
  cases n with
  | zero =>
    cases reaches with
    | start =>
      obtain rfl : [] = u := List.append_cancel_right (taken.complete word)
      obtain ⟨z, terminals, derives⟩ := productive.exists_derives
        (List.forall_mem_singleton.mpr fun _ => Grammar.start_mem_symbols)
      exact ⟨z, terminals, derives⟩
  | succ n =>
    obtain ⟨d, target, before, action, rfl, mem⟩ :=
      canonical.exists_shift_of_first_error word avoids productive free reaches error clean
    obtain ⟨v, taken'⟩ := canonical.exists_taken word avoids before
      fun k lt e earlier => clean k (by omega) e earlier
    have whole : v ++ [d.current] ++ d.input.tail = u ++ d.input.tail := by
      rw [List.append_assoc, List.singleton_append, ← taken'.input, ← taken'.complete word]
      exact taken.complete word
    have same : v ++ [d.current] = u := List.append_cancel_right whole
    have acts : p.machine.action d ≠ .error := by simp [action]
    rcases (canonical.action_ne_error_iff word avoids productive free before taken').mp acts with
      ⟨mark, _⟩ | ⟨z, sentence⟩
    · have visible := avoids _ (canonical.mem_symbols (Grammar.mem_terminals.mp mem).1)
      rw [mark] at visible
      cases visible
    · exact ⟨z, by simpa [← same] using sentence⟩

end Word

end Canonical

/-- The parser of a grammar without the end mark, whose non-terminals all derive terminal strings and
whose automaton has no conflicts, detects errors at once. On a string of terminals it meets an error
exactly if the string is no sentence. At the first error a sentence begins with what has been taken,
but none goes on with the current symbol or, at the end mark, ends there; and the step before, if there
is one, is a shift. -/
theorem error_iff_not_isSentence {g : Grammar} {p : Parser} (lhs : g.LeftHandSidesNonTerminal)
    (kinds : g.OneKindPerName) (avoids : g.AvoidsEndMark) (productive : g.Productive)
    (built : ofGrammar g = .ok p) (free : p.automaton.ConflictFree) {w : List Symbol}
    (word : ∀ s ∈ w, s.isTerminal = true ∧ s.isEndMark = false) :
    ((∃ n c, p.machine.Reaches w n c ∧ p.machine.action c = .error) ↔ ¬ g.IsSentence w) ∧
    (∀ limit trace, p.parse limit w = some (.ok trace) →
      (trace.hadError = true ↔ ¬ g.IsSentence w)) ∧
    ∀ n c, p.machine.Reaches w n c → p.machine.action c = .error →
      (∀ k < n, ∀ d, p.machine.Reaches w k d → p.machine.action d ≠ .error) →
        ∃ u a rest, c.input = a :: rest ∧ w ++ [.endMark] = u ++ a :: rest ∧
          (∃ z, g.IsSentence (u ++ z)) ∧ (∀ z, ¬ g.IsSentence (u ++ a :: z)) ∧
          (a = .endMark → ¬ g.IsSentence u) ∧
          ∀ k d, n = k + 1 → p.machine.Reaches w k d →
            ∃ target, p.machine.action d = .shift target := by
  have canonical := canonical_of_ofGrammar lhs kinds built
  have occurs : (∃ n c, p.machine.Reaches w n c ∧ p.machine.action c = .error) ↔
      ¬ g.IsSentence w := by
    constructor
    · rintro ⟨n, c, reaches, error⟩ sentence
      obtain ⟨limit, bounded⟩ := canonical.exists_bound_of_isSentence avoids free sentence
      exact (bounded n c reaches).2 error
    · intro other
      by_contra none
      exact other (canonical.isSentence_of_clean word avoids productive free
        fun n c reaches error => none ⟨n, c, reaches, error⟩)
  refine ⟨occurs, fun limit trace parsed => ?_, fun n c reaches error clean => ?_⟩
  · rw [← occurs]
    exact Machine.hadError_iff_reaches parsed
  · obtain ⟨u, taken⟩ := canonical.exists_taken word avoids reaches clean
    have wrong : ¬ g.Continues u c.current := fun continues =>
      (canonical.action_ne_error_iff word avoids productive free reaches taken).mpr continues error
    refine ⟨u, c.current, c.input.tail, taken.input, taken.whole,
      canonical.exists_isSentence_append word avoids productive free reaches error clean taken,
      fun z sentence => wrong (.inr ⟨z, sentence⟩), fun mark sentence => wrong (.inl ⟨mark, sentence⟩),
      ?_⟩
    rintro k d rfl before
    obtain ⟨d', target, before', shifts, _⟩ := canonical.exists_shift_of_first_error word avoids
      productive free reaches error clean
    rw [before.unique before']
    exact ⟨target, shifts⟩

theorem productive_assignments : assignments.Productive := by
  have only : ∀ a ∈ assignments.symbols, a.isNonTerminal = true →
      a = .nonTerminal "S" ∨ a = .nonTerminal "L" ∨ a = .nonTerminal "R" := by decide +kernel
  have name : assignments.Derives [.nonTerminal "L"] [.terminal "n"] :=
    @Grammar.Derives.of_mem _ ⟨.nonTerminal "L", [.terminal "n"]⟩ (by decide +kernel)
  have right : assignments.Derives [.nonTerminal "R"] [.nonTerminal "L"] :=
    @Grammar.Derives.of_mem _ ⟨.nonTerminal "R", [.nonTerminal "L"]⟩ (by decide +kernel)
  have statement : assignments.Derives [.nonTerminal "S"] [.nonTerminal "R"] :=
    @Grammar.Derives.of_mem _ ⟨.nonTerminal "S", [.nonTerminal "R"]⟩ (by decide +kernel)
  intro a mem kind
  rcases only a mem kind with rfl | rfl | rfl
  · exact ⟨_, by decide, (statement.trans right).trans name⟩
  · exact ⟨_, by decide, name⟩
  · exact ⟨_, by decide, right.trans name⟩

theorem not_isSentence_of_error : assignments.LeftHandSidesNonTerminal ∧
    assignments.OneKindPerName ∧ assignments.AvoidsEndMark ∧ assignments.Productive ∧
    ∃ p, ofGrammar assignments = .ok p ∧ p.automaton.ConflictFree ∧
      (∀ s ∈ [Symbol.terminal "n", .terminal "=", .terminal "n", .terminal "="],
        s.isTerminal = true ∧ s.isEndMark = false) ∧
      ¬ assignments.IsSentence [.terminal "n", .terminal "=", .terminal "n", .terminal "="] ∧
      ∃ n c u a rest, p.machine.Reaches [.terminal "n", .terminal "=", .terminal "n", .terminal "="]
          n c ∧ p.machine.action c = .error ∧ c.input = a :: rest ∧
        (∃ z, assignments.IsSentence (u ++ z)) ∧ ∀ z, ¬ assignments.IsSentence (u ++ a :: z) := by
  have lhs : assignments.LeftHandSidesNonTerminal := by decide +kernel
  have kinds : assignments.OneKindPerName := by decide +kernel
  have avoids : assignments.AvoidsEndMark := by decide +kernel
  obtain ⟨p, built⟩ := exists_ofGrammar (g := assignments) (by decide +kernel)
  have computed := of_any_ofGrammar (f := fun p => decide p.automaton.ConflictFree &&
    (p.parse 30 [.terminal "n", .terminal "=", .terminal "n", .terminal "="]).any
      fun result => result.toOption.any fun trace => trace.hadError) built (by decide +kernel)
  rw [Bool.and_eq_true, decide_eq_true_eq] at computed
  obtain ⟨free, run⟩ := computed
  obtain ⟨trace, parsed, met⟩ := Machine.exists_trace_of_any run
  have word : ∀ s ∈ [Symbol.terminal "n", .terminal "=", .terminal "n", .terminal "="],
      s.isTerminal = true ∧ s.isEndMark = false := by decide
  obtain ⟨occurs, decides, first⟩ :=
    error_iff_not_isSentence lhs kinds avoids productive_assignments built free word
  have other := (decides 30 trace parsed).mp met
  have reached := occurs.mpr other
  classical
  obtain ⟨c, reaches, error⟩ := Nat.find_spec reached
  obtain ⟨u, a, rest, input, _, beginning, wrong, _⟩ := first _ c reaches error
    fun k lt d earlier met => Nat.find_min reached lt ⟨d, earlier, met⟩
  exact ⟨lhs, kinds, avoids, productive_assignments, p, built, free, word, other,
    _, c, u, a, rest, reaches, error, input, beginning, wrong⟩

end Parser

end CanonicalLR
