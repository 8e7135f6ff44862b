import CanonicalLR.Grammar.First
import Mathlib.Algebra.GroupWithZero.Nat
import Mathlib.Data.List.Pairwise

/-!
Catalogues: grammars that keep their productions by left-hand side, each with the set of its
alternatives, and the rule numbers twice, as the list of the rules and as an index from productions to
numbers. A catalogue is read as a grammar; what happens to either in the course of its life is a
sequence of calls.
-/

set_option autoImplicit false
set_option relaxedAutoImplicit false

namespace CanonicalLR

/-- What can be done to a grammar. -/
inductive Call where
  | push (lhs : Symbol) (rhs : List Symbol)
  | pushAll (lhs : Symbol) (alternatives : List (List Symbol))
  | augment
  | numberRules
  | computeFirst
  deriving DecidableEq

def Grammar.call (g : Grammar) : Call → Grammar
  | .push lhs rhs => g.push lhs rhs
  | .pushAll lhs alternatives => g.pushAll lhs alternatives
  | .augment => g.augment
  | .numberRules => g.numberRules
  | .computeFirst => g.computeFirst

def Grammar.calls (g : Grammar) (calls : List Call) : Grammar := calls.foldl Grammar.call g

/-- The alternatives of left-hand sides. -/
abbrev Shelves := SymbolMap (OrderedSet (List Symbol))

namespace Shelves

/-- The productions, shelf by shelf. -/
def listing (entries : List (Symbol × OrderedSet (List Symbol))) : List Production :=
  entries.flatMap fun entry => entry.2.toList.map (⟨entry.1, ·⟩)

/-- A production is its left-hand side and one of the alternatives there. -/
def Holds (shelves : Shelves) (production : Production) : Prop :=
  ∃ entry ∈ shelves.toList, entry.1 = production.lhs ∧ production.rhs ∈ entry.2

def put (rhs : List Symbol) (present : Option (OrderedSet (List Symbol))) :
    OrderedSet (List Symbol) :=
  (present.getD .empty).insert rhs

theorem mem_listing {shelves : Shelves} {production : Production} :
    production ∈ listing shelves.toList ↔ shelves.Holds production := by
  simp only [listing, List.mem_flatMap, List.mem_map, Holds]
  constructor
  · rintro ⟨entry, mem, rhs, here, rfl⟩
    exact ⟨entry, mem, rfl, here⟩
  · rintro ⟨entry, mem, same, here⟩
    exact ⟨entry, mem, production.rhs, here, by rw [same]⟩

theorem compare_of_lt {p q : Production} (h : compare p.lhs q.lhs = .lt) : compare p q = .lt := by
  change (compare p.lhs q.lhs).then (compare p.rhs q.rhs) = .lt
  rw [h]
  rfl

theorem compare_same (lhs : Symbol) (left right : List Symbol) :
    compare (⟨lhs, left⟩ : Production) ⟨lhs, right⟩ = compare left right := by
  have self : compare lhs lhs = .eq := Std.ReflCmp.compare_self
  change (compare lhs lhs).then (compare left right) = _
  rw [self]
  rfl

/-- Shelf by shelf the productions are in ascending order. -/
theorem ascending_listing {entries : List (Symbol × OrderedSet (List Symbol))}
    (ascending : entries.Pairwise fun a b => compare a.1 b.1 = .lt) :
    (listing entries).Pairwise fun a b => compare a b = .lt := by
  refine List.pairwise_flatMap.mpr ⟨fun entry _ => ?_, ascending.imp fun {a b} less => ?_⟩
  · refine List.pairwise_map.mpr (entry.2.ascending.imp fun less => ?_)
    rw [compare_same]
    exact less
  · intro p hp q hq
    obtain ⟨_, _, rfl⟩ := List.mem_map.mp hp
    obtain ⟨_, _, rfl⟩ := List.mem_map.mp hq
    exact compare_of_lt less

/-- After a production has been put on its shelf, a shelf is as before or holds what it held and the
new alternative. -/
theorem eq_or_put_of_mem {key : Symbol} {rhs : List Symbol}
    {entries : List (Symbol × OrderedSet (List Symbol))} {entry : Symbol × OrderedSet (List Symbol)}
    (h : entry ∈ SymbolMap.alterIn key (put rhs) entries) :
    entry ∈ entries ∨ entry.2 = OrderedSet.empty.insert rhs ∨
      ∃ other ∈ entries, entry.2 = other.2.insert rhs := by
  induction entries with
  | nil =>
    obtain rfl := List.mem_singleton.mp h
    exact .inr (.inl rfl)
  | cons head entries ih =>
    unfold SymbolMap.alterIn at h
    split at h
    · rcases List.mem_cons.mp h with rfl | old
      · exact .inr (.inl rfl)
      · exact .inl old
    · rcases List.mem_cons.mp h with rfl | old
      · exact .inr (.inr ⟨head, List.mem_cons_self .., rfl⟩)
      · exact .inl (List.mem_cons_of_mem _ old)
    · rcases List.mem_cons.mp h with rfl | later
      · exact .inl (List.mem_cons_self ..)
      · refine (ih later).imp (List.mem_cons_of_mem _) (Or.imp_right ?_)
        rintro ⟨other, mem, same⟩
        exact ⟨other, List.mem_cons_of_mem _ mem, same⟩

end Shelves

/-- A grammar with its productions on shelves, its rules in a list and their numbers in an index. -/
structure Catalogue where
  start : Symbol
  shelves : Shelves
  firstTable : FirstTable
  rules : List Production
  index : Std.TreeMap Production Nat compare
  inhabited : ∀ entry ∈ shelves.toList, entry.2.toList ≠ []
  visible : ∀ entry ∈ shelves.toList, ∀ rhs ∈ entry.2, ∀ s ∈ rhs, s.isEmpty = false

namespace Catalogue

def ofStart (start : Symbol) : Catalogue where
  start := start
  shelves := .empty
  firstTable := .empty
  rules := []
  index := ∅
  inhabited := nofun
  visible := nofun

def count (c : Catalogue) : Nat := (c.shelves.toList.map (·.2.size)).sum

def rule? (c : Catalogue) (number : Nat) : Option Production := c.rules[number]?

def ruleNumber? (c : Catalogue) (production : Production) : Option Nat := c.index[production]?

/-- The grammar that a catalogue is read as. -/
def toGrammar (c : Catalogue) : Grammar where
  start := c.start
  productions := ⟨Shelves.listing c.shelves.toList, Shelves.ascending_listing c.shelves.ascending⟩
  firstTable := c.firstTable
  rules := c.rules
  visible production mem := by
    obtain ⟨entry, here, -, rhs⟩ := Shelves.mem_listing.mp (OrderedSet.mem_def.mp mem)
    exact c.visible entry here production.rhs rhs

/-- Puts an alternative, less its empty symbols, on the shelf of its left-hand side. -/
def push (c : Catalogue) (lhs : Symbol) (rhs : List Symbol) : Catalogue where
  start := c.start
  shelves := c.shelves.alter lhs (Shelves.put (rhs.filter (!·.isEmpty)))
  firstTable := c.firstTable
  rules := c.rules
  index := c.index
  inhabited entry mem := by
    rcases Shelves.eq_or_put_of_mem mem with old | new | ⟨other, here, new⟩
    · exact c.inhabited entry old
    · rw [new]
      exact List.cons_ne_nil _ _
    · rw [new]
      obtain ⟨first, some_rhs⟩ := List.exists_mem_of_ne_nil _ (c.inhabited other here)
      exact List.ne_nil_of_mem (OrderedSet.mem_insert_of_mem some_rhs)
  visible entry mem alternative here s hs := by
    have put : alternative = rhs.filter (!·.isEmpty) → s.isEmpty = false := by
      rintro rfl
      simpa using (List.mem_filter.mp hs).2
    rcases Shelves.eq_or_put_of_mem mem with old | new | ⟨other, old, new⟩
    · exact c.visible entry old alternative here s hs
    · rw [new] at here
      exact put (List.mem_singleton.mp here)
    · rw [new] at here
      rcases OrderedSet.eq_or_mem_of_mem_insert here with same | before
      · exact put same
      · exact c.visible other old alternative before s hs

def pushAll (c : Catalogue) (lhs : Symbol) (alternatives : List (List Symbol)) : Catalogue :=
  alternatives.foldl (·.push lhs) c

def augment (c : Catalogue) : Catalogue :=
  { c.push c.toGrammar.freshStart [c.start] with start := c.toGrammar.freshStart }

/-- Puts a rule at the end of the list and its place there into the index. -/
def enter (numbered : List Production × Std.TreeMap Production Nat compare) (rule : Production) :
    List Production × Std.TreeMap Production Nat compare :=
  (numbered.1 ++ [rule], numbered.2.insert rule numbered.1.length)

/-- Numbers the productions afresh, shelf by shelf and alternative by alternative. -/
def numberRules (c : Catalogue) : Catalogue :=
  let numbered := c.shelves.toList.foldl
    (fun numbered entry => entry.2.toList.foldl (fun numbered rhs => enter numbered ⟨entry.1, rhs⟩)
      numbered)
    ([], ∅)
  { c with rules := numbered.1, index := numbered.2 }

def computeFirst (c : Catalogue) : Catalogue :=
  { c with firstTable := c.toGrammar.computeFirst.firstTable }

def call (c : Catalogue) : Call → Catalogue
  | .push lhs rhs => c.push lhs rhs
  | .pushAll lhs alternatives => c.pushAll lhs alternatives
  | .augment => c.augment
  | .numberRules => c.numberRules
  | .computeFirst => c.computeFirst

def calls (c : Catalogue) (calls : List Call) : Catalogue := calls.foldl call c

end Catalogue

end CanonicalLR
