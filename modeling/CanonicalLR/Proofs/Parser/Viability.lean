import CanonicalLR.Proofs.Item.Validity
import CanonicalLR.Proofs.Machine.Paths
import CanonicalLR.Proofs.Parser.Predictions

/-!
Where every non-terminal derives a terminal string, the items of a parser's states are valid: those on
top of a path stand in right sentential forms that begin with the symbols of the path.
-/

set_option autoImplicit false
set_option relaxedAutoImplicit false

namespace CanonicalLR.Parser.Canonical

variable {g : Grammar} {p : Parser} (canonical : p.Canonical g)
include canonical

/-- What stands behind an item in a right sentential form begins with a possible lookahead. -/
theorem isLookahead_of_stands {path behind : List Symbol} {item : Item}
    (stands : item.Stands p.machine.grammar path behind) :
    p.machine.grammar.IsLookahead (Item.lookaheadOf behind) := by
  cases behind with
  | nil => exact .inr rfl
  | cons t behind =>
    obtain ⟨productions, form⟩ := stands.rightmostDerives
    have known := form.derives.subset_symbols (by simpa using Grammar.start_mem_symbols) t
      (List.mem_append_right _ (List.mem_cons_self ..))
    exact .inl (canonical.machine.mem_terminals known (stands.terminals t (List.mem_cons_self ..)))

/-- In the prepared grammar, too, a string whose non-terminals are known derives a terminal string. -/
theorem exists_derives (productive : g.Productive) {u : List Symbol}
    (inside : ∀ s ∈ u, s.isNonTerminal = true → s ∈ p.machine.grammar.symbols) :
    ∃ w, (∀ s ∈ w, s.isTerminal = true) ∧ p.machine.grammar.Derives u w :=
  (canonical.productive productive).exists_derives inside

section Productive

variable (avoids : g.AvoidsEndMark) (productive : g.Productive)
include avoids productive

/-- What is in FIRST of a string with a lookahead behind it is the first symbol of a terminal string
that the string derives, with the lookahead behind that. -/
theorem exists_derives_of_mem_ofString {string : List Symbol} {b a : Symbol}
    (occur : ∀ s ∈ string, s ∈ p.machine.grammar.occurrences)
    (known : p.machine.grammar.IsLookahead b)
    (mem : a ∈ p.machine.grammar.firstTable.ofString (string ++ [b])) :
    ∃ w, (∀ s ∈ w, s.isTerminal = true) ∧ p.machine.grammar.Derives string w ∧
      a = w.headD b := by
  have terminal := FirstTable.isTerminal_of_mem_ofString canonical.machine.holds mem
  rcases canonical.cases_of_mem_ofString avoids occur known mem with ⟨v, derives⟩ | ⟨rfl, derives⟩
  · have inside : ∀ s ∈ v, s.isNonTerminal = true → s ∈ p.machine.grammar.symbols := fun s hs _ =>
      Grammar.occurrences_subset_symbols
        ((derives.mem_or_occurs (List.mem_cons_of_mem a hs)).elim (occur s) id)
    obtain ⟨w, terminals, later⟩ := canonical.exists_derives productive inside
    exact ⟨a :: w, List.forall_mem_cons.mpr ⟨terminal, terminals⟩,
      derives.trans (Grammar.Derives.concat (.refl : Grammar.Derives _ [a] [a]) later), rfl⟩
  · exact ⟨[], List.forall_mem_nil _, derives, rfl⟩

/-- What a valid item predicts is valid. -/
private theorem valid_of_mem_predictions {path : List Symbol} {item q : Item}
    (belongs : item.Belongs p.machine.grammar) (valid : item.Valid p.machine.grammar path)
    (predicted : q ∈ item.predictions p.machine.grammar) : q.Valid p.machine.grammar path := by
  obtain ⟨behind, stands, lookahead⟩ := Item.valid_iff_stands.mp valid
  obtain ⟨production, mem, rest, a, after, first, rfl⟩ :=
    canonical.exists_production_of_mem_predictions belongs.production predicted
  have occurs := Item.rest_subset_occurrences belongs.production after
  have known := canonical.isLookahead_of_stands stands
  rw [← lookahead] at known
  obtain ⟨w, terminals, derives, same⟩ :=
    canonical.exists_derives_of_mem_ofString avoids productive occurs known first
  refine Item.valid_iff_stands.mpr ⟨_, stands.predicts mem after derives terminals a, ?_⟩
  rw [Item.lookaheadOf_append, ← lookahead]
  exact same

/-- The items on top of a path are valid for its symbols. -/
theorem valid_of_path {stack : List Frame}
    (path : Automaton.Path p.machine.grammar p.automaton stack) {item : Item}
    (here : p.automaton.HasItem (topState stack) item) :
    item.Valid p.machine.grammar (stack.reverse.map (·.symbol)) := by
  refine path.hasItem_induction canonical.machine.toCanonical
    (Q := fun stack item =>
      item.Valid p.machine.grammar (stack.reverse.map fun frame : Frame => frame.symbol)) ?_
    (fun frame below item rest _ valid after => ?_) (fun stack item there valid q predicted =>
      canonical.valid_of_mem_predictions avoids productive (canonical.machine.belongs there) valid
        predicted) here
  · exact ⟨canonical.machine.belongs_startItem.production, [], [], [], .refl _,
      List.forall_mem_nil _, rfl, rfl⟩
  · obtain ⟨behind, stands, lookahead⟩ := Item.valid_iff_stands.mp valid
    refine Item.valid_iff_stands.mpr ⟨behind, ?_, lookahead⟩
    simpa using stands.advance after

end Productive

end CanonicalLR.Parser.Canonical
