import CanonicalLR.Proofs.Grammar.Preparation
import Mathlib.Logic.Function.Iterate
import Mathlib.Logic.Relation

/-!
Augmentation, any number of times. Every time the search for a name ends, one production is added for
the new start symbol, which occurs nowhere else, and the start symbol generates what the one before
generated; also where derivations tell symbols apart by their names only.
-/

set_option autoImplicit false
set_option relaxedAutoImplicit false

namespace CanonicalLR.Grammar

/-- A name stands on a left-hand side or in a right-hand side. -/
def IsUsed (g : Grammar) (name : String) : Prop :=
  ∃ production ∈ g.productions, name = production.lhs.name ∨
    ∃ s ∈ production.rhs, name = s.name

/-- One symbol of a string is replaced by a right-hand side of its name, whatever its kind. -/
inductive Rewrites (g : Grammar) : List Symbol → List Symbol → Prop
  | replace {production : Production} (mem : production ∈ g.productions) {s : Symbol}
      (name : s.name = production.lhs.name) (left right : List Symbol) :
      Rewrites g (left ++ s :: right) (left ++ production.rhs ++ right)

/-- A string of terminals into which the start symbol is rewritten. -/
def Generates (g : Grammar) (w : List Symbol) : Prop :=
  (∀ s ∈ w, s.isTerminal) ∧ Relation.ReflTransGen g.Rewrites [g.start] w

/-- A grammar is another one with a fresh start symbol before its own. The name of it is that of the
start symbol before with the least positive number of primes that makes it an unused one. -/
structure IsAugmentation (g h : Grammar) : Prop where
  name : ∃ k, 0 < k ∧ k ≤ g.usedCount + 1 ∧ h.start = g.primedStart k ∧ ¬ g.IsUsed h.start.name ∧
    ∀ j, 0 < j → j < k → g.IsUsed (g.primedStart j).name
  productions : h.productions.toList.Perm (⟨h.start, [g.start]⟩ :: g.productions.toList)
  computed : h.firstTable = g.firstTable ∧ h.rules = g.rules
  augmented : h.isAugmented = true
  alone : ∀ p ∈ h.productions,
    (p.lhs.name = h.start.name → p = ⟨h.start, [g.start]⟩) ∧ ∀ s ∈ p.rhs, s.name ≠ h.start.name
  sentences : ∀ w, h.IsSentence w ↔ g.IsSentence w
  generated : ∀ w, h.Generates w ↔ g.Generates w

variable {g : Grammar}

theorem uses_iff_isUsed {s : Symbol} : g.uses s = true ↔ g.IsUsed s.name := by
  simp only [uses, IsUsed, List.any_eq_true, Bool.or_eq_true, Symbol.beq_iff_name_eq,
    OrderedSet.mem_def]

/-- The search needs no more rounds than there are used names, and one. -/
theorem freshPrimes_le : g.freshPrimes ≤ g.usedCount + 1 := by
  unfold freshPrimes
  dsimp only
  cases found : (List.range (g.usedCount + 1)).find? fun i => !g.uses (g.primedStart (i + 1)) with
  | none => exact Nat.succ_le_succ (Nat.zero_le _)
  | some i =>
    have inside := List.mem_range.mp (List.mem_of_find?_eq_some found)
    exact inside

private theorem name_augment : ∃ k, 0 < k ∧ k ≤ g.usedCount + 1 ∧ g.augment.start = g.primedStart k ∧
    ¬ g.IsUsed g.augment.start.name ∧ ∀ j, 0 < j → j < k → g.IsUsed (g.primedStart j).name := by
  obtain ⟨i, primes, free, before⟩ := freshPrimes_spec (g := g)
  have start : g.augment.start = g.primedStart (i + 1) := by
    rw [start_augment, freshStart, primes]
  refine ⟨i + 1, Nat.succ_pos i, primes ▸ freshPrimes_le, start, fun used => ?_, ?_⟩
  · rw [start, ← uses_iff_isUsed, free] at used
    cases used
  · intro j positive less
    obtain ⟨j, rfl⟩ := Nat.exists_eq_succ_of_ne_zero (Nat.ne_of_gt positive)
    exact uses_iff_isUsed.mp (before j (Nat.lt_of_succ_lt_succ less))

private theorem ne_freshStart {w : List Symbol} (terminals : ∀ s ∈ w, s.isTerminal = true) :
    w ≠ [g.freshStart] := by
  rintro rfl
  have kind := terminals g.freshStart (List.mem_singleton_self _)
  cases kind

section Named

variable (named : g.start.isEmpty = false)
include named

theorem mem_productions_augment {production : Production} :
    production ∈ g.augment.productions ↔
      production = g.startProduction ∨ production ∈ g.productions :=
  mem_productions_prepare named

private theorem perm_productions_augment :
    g.augment.productions.toList.Perm (g.startProduction :: g.productions.toList) := by
  have fresh : g.startProduction ∉ g.productions.toList := fun mem =>
    name_ne_freshStart (lhs_mem_symbols mem) rfl
  refine (List.perm_ext_iff_of_nodup g.augment.productions.nodup
    (List.nodup_cons.mpr ⟨fresh, g.productions.nodup⟩)).mpr fun production => ?_
  rw [List.mem_cons]
  exact mem_productions_augment named

private theorem alone_augment {p : Production} (mem : p ∈ g.augment.productions) :
    (p.lhs.name = g.freshStart.name → p = g.startProduction) ∧
      ∀ s ∈ p.rhs, s.name ≠ g.freshStart.name := by
  rcases (mem_productions_augment named).mp mem with rfl | old
  · refine ⟨fun _ => rfl, fun s hs => ?_⟩
    rw [List.mem_singleton.mp hs]
    exact name_ne_freshStart start_mem_symbols
  · exact ⟨fun same => absurd same (name_ne_freshStart (lhs_mem_symbols old)),
      fun s hs => name_ne_freshStart (rhs_subset_symbols old hs)⟩

private theorem isSentence_augment_iff {w : List Symbol} :
    g.augment.IsSentence w ↔ g.IsSentence w := by
  refine and_congr_right fun terminals => ⟨fun derives => ?_, fun derives => ?_⟩
  · have same : ∀ p ∈ g.augment.productions, p ∈ g.prepare.productions := fun _ mem => mem
    exact ((derives.mono same).of_freshStart named).resolve_left (ne_freshStart terminals)
  · have first : g.augment.Derives [g.freshStart] [g.start] :=
      Derives.of_mem ((mem_productions_augment named).mpr (.inl rfl))
    exact first.trans (derives.mono fun _ mem => (mem_productions_augment named).mpr (.inr mem))

/-- A string without the fresh name is rewritten as before, and stays without it. -/
private theorem Rewrites.of_augment {u v : List Symbol} (step : g.augment.Rewrites u v)
    (without : ∀ s ∈ u, s.name ≠ g.freshStart.name) :
    g.Rewrites u v ∧ ∀ s ∈ v, s.name ≠ g.freshStart.name := by
  cases step with
  | @replace production mem s name left right =>
    have here := without s (List.mem_append_right _ (List.mem_cons_self ..))
    have old : production ∈ g.productions :=
      ((mem_productions_augment named).mp mem).resolve_left fun fresh => by
        rw [fresh] at name
        exact here name
    refine ⟨.replace old name left right, fun t ht => ?_⟩
    rcases List.mem_append.mp ht with ht | ht
    · rcases List.mem_append.mp ht with ht | ht
      · exact without t (List.mem_append_left _ ht)
      · exact (alone_augment named mem).2 t ht
    · exact without t (List.mem_append_right _ (List.mem_cons_of_mem _ ht))

/-- The fresh start symbol is rewritten into the start symbol before, and in no other way. -/
private theorem eq_of_rewrites_freshStart {v : List Symbol}
    (step : g.augment.Rewrites [g.freshStart] v) : v = [g.start] := by
  generalize whole : [g.freshStart] = u at step
  cases step with
  | @replace production mem s name left right =>
    rcases List.singleton_eq_append_iff.mp whole with ⟨rfl, rest⟩ | ⟨-, nothing⟩
    · obtain ⟨rfl, rfl⟩ := List.cons_eq_cons.mp rest
      rw [(alone_augment named mem).1 name.symm]
      rfl
    · cases nothing

private theorem rewrites_of_freshStart {v : List Symbol}
    (h : Relation.ReflTransGen g.augment.Rewrites [g.freshStart] v) :
    v = [g.freshStart] ∨ Relation.ReflTransGen g.Rewrites [g.start] v ∧
      ∀ s ∈ v, s.name ≠ g.freshStart.name := by
  induction h with
  | refl => exact .inl rfl
  | tail _ step ih =>
    right
    rcases ih with rfl | ⟨before, without⟩
    · rw [eq_of_rewrites_freshStart named step]
      refine ⟨.refl, fun s hs => ?_⟩
      rw [List.mem_singleton.mp hs]
      exact name_ne_freshStart start_mem_symbols
    · obtain ⟨old, still⟩ := step.of_augment named without
      exact ⟨before.tail old, still⟩

private theorem generates_augment_iff {w : List Symbol} :
    g.augment.Generates w ↔ g.Generates w := by
  refine and_congr_right fun terminals => ⟨fun rewrites => ?_, fun rewrites => ?_⟩
  · exact ((rewrites_of_freshStart named rewrites).resolve_left (ne_freshStart terminals)).1
  · have first : g.augment.Rewrites [g.freshStart] [g.start] :=
      .replace ((mem_productions_augment named).mpr (.inl rfl)) rfl [] []
    refine .head first (Relation.ReflTransGen.mono ?_ _ _ rewrites)
    rintro u v ⟨mem, name, left, right⟩
    exact .replace ((mem_productions_augment named).mpr (.inr mem)) name left right

theorem isAugmentation_augment : IsAugmentation g g.augment where
  name := name_augment
  productions := perm_productions_augment named
  computed := ⟨rfl, rfl⟩
  augmented := isAugmented_prepare named
  alone _ := alone_augment named
  sentences _ := isSentence_augment_iff named
  generated _ := generates_augment_iff named

omit named in
theorem isEmpty_start_augment : g.augment.start.isEmpty = false :=
  beq_eq_false_iff_ne.mpr (name_freshStart_ne "" (by decide))

private theorem isEmpty_start_iterate (n : Nat) : (augment^[n] g).start.isEmpty = false := by
  cases n with
  | zero => exact named
  | succ n =>
    rw [Function.iterate_succ_apply']
    exact isEmpty_start_augment

/-- Each of any number of calls augments the grammar that the calls before it have left, and all of
them together leave what the grammar generates. -/
theorem augment_iterate (n : Nat) :
    IsAugmentation (augment^[n] g) (augment^[n + 1] g) ∧
      (∀ w, (augment^[n] g).IsSentence w ↔ g.IsSentence w) ∧
      ∀ w, (augment^[n] g).Generates w ↔ g.Generates w := by
  have call : ∀ k, IsAugmentation (augment^[k] g) (augment^[k + 1] g) := by
    intro k
    rw [Function.iterate_succ_apply']
    exact isAugmentation_augment (isEmpty_start_iterate named k)
  refine ⟨call n, ?_⟩
  induction n with
  | zero => exact ⟨fun _ => Iff.rfl, fun _ => Iff.rfl⟩
  | succ n ih =>
    obtain ⟨sentences, generated⟩ := ih
    exact ⟨fun w => ((call n).sentences w).trans (sentences w),
      fun w => ((call n).generated w).trans (generated w)⟩

end Named

/-- A primed name is in use, so the first call sets two primes; the second one then sets one more. -/
theorem augment_iterate_primed : ∃ g : Grammar, g.start = .nonTerminal "S" ∧
    g.IsUsed "S'" ∧ (augment^[1] g).start = .nonTerminal "S''" ∧
    (augment^[2] g).start = .nonTerminal "S'''" ∧
    IsAugmentation (augment^[1] g) (augment^[2] g) ∧
    (augment^[1] g).IsSentence [.terminal "a"] := by
  let g := (ofStart (.nonTerminal "S")).pushAll (.nonTerminal "S")
    [[.nonTerminal "S'"], [.terminal "a"]]
  obtain ⟨augments, sentences, -⟩ := augment_iterate (g := g) (by decide) 1
  have used : g.uses (.nonTerminal "S'") = true := by decide +kernel
  have produced : ⟨.nonTerminal "S", [.terminal "a"]⟩ ∈ g.productions := by decide +kernel
  exact ⟨g, rfl, uses_iff_isUsed.mp used, by decide +kernel, by decide +kernel, augments,
    (sentences _).mpr ⟨by decide, .of_mem produced⟩⟩

end CanonicalLR.Grammar
