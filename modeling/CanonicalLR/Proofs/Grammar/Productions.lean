import CanonicalLR.Proofs.Grammar.Reading

/-!
Grammars made of a start symbol and a list of productions, added one after the other. Neither the
order of the list nor repetitions in it count: lists of the same productions, told apart by names,
give the same grammar, and where every symbol has the kind that its name shows, equal ones with just
the productions of the list.
-/

set_option autoImplicit false
set_option relaxedAutoImplicit false

namespace CanonicalLR.Grammar

/-- Adds productions one after the other. -/
def pushEach (g : Grammar) (productions : List Production) : Grammar :=
  productions.foldl (fun g production => g.push production.lhs production.rhs) g

/-- A start symbol with productions, added one after the other. -/
def ofProductions (start : Symbol) (productions : List Production) : Grammar :=
  (ofStart start).pushEach productions

variable {g : Grammar}

theorem pushEach_append (g : Grammar) (first second : List Production) :
    g.pushEach (first ++ second) = (g.pushEach first).pushEach second := List.foldl_append

theorem pushAll_eq_pushEach (g : Grammar) (lhs : Symbol) (alternatives : List (List Symbol)) :
    g.pushAll lhs alternatives = g.pushEach (alternatives.map fun rhs => ⟨lhs, rhs⟩) := by
  rw [pushEach, List.foldl_map]
  rfl

/-- What adding a production keeps, adding productions keeps. -/
theorem pushEach_induction {P : Grammar → Prop} {productions : List Production}
    (keep : ∀ g, ∀ production ∈ productions, P g → P (g.push production.lhs production.rhs))
    (h : P g) : P (g.pushEach productions) := by
  induction productions generalizing g with
  | nil => exact h
  | cons production productions ih =>
    exact ih (fun g p mem => keep g p (List.mem_cons_of_mem _ mem))
      (keep g production (List.mem_cons_self ..) h)

/-- Adding productions leaves the start symbol and what has been computed. -/
theorem parts_pushEach (g : Grammar) (productions : List Production) :
    (g.pushEach productions).start = g.start ∧ (g.pushEach productions).firstTable = g.firstTable ∧
      (g.pushEach productions).rules = g.rules :=
  pushEach_induction (P := fun h => h.start = g.start ∧ h.firstTable = g.firstTable ∧
    h.rules = g.rules) (fun _ _ _ same => same) ⟨rfl, rfl, rfl⟩

@[simp] theorem start_ofProductions (start : Symbol) (productions : List Production) :
    (ofProductions start productions).start = start := (parts_pushEach _ _).1

theorem name_leftHandSide (g : Grammar) (lhs : Symbol) : (g.leftHandSide lhs).name = lhs.name := by
  unfold leftHandSide
  split
  · next production found =>
    exact Symbol.beq_iff_name_eq.mp (by simpa using List.find?_some found)
  · rfl

private theorem contains_push {lhs : Symbol} {rhs : List Symbol} {p : Production} :
    (g.push lhs rhs).productions.contains p = true ↔
      compare p ⟨lhs, rhs.filter (!·.isEmpty)⟩ = .eq ∨ g.productions.contains p = true := by
  refine OrderedSet.contains_insert.trans (or_congr_left ?_)
  rw [Production.compare_eq_iff, Production.compare_eq_iff, name_leftHandSide]

/-- Up to the kinds of symbols, the productions are those there were and those of the list. -/
theorem contains_pushEach {productions : List Production} {p : Production} :
    (g.pushEach productions).productions.contains p = true ↔ g.productions.contains p = true ∨
      ∃ q ∈ productions, compare p ⟨q.lhs, q.rhs.filter (!·.isEmpty)⟩ = .eq := by
  induction productions generalizing g with
  | nil => simp [pushEach]
  | cons production productions ih =>
    change ((g.push production.lhs production.rhs).pushEach productions).productions.contains p = true
      ↔ _
    rw [ih, contains_push]
    simp only [List.mem_cons, exists_eq_or_imp]
    tauto

/-- Every production of one list has one of the other with the same right-hand side and a left-hand
side of the same name. -/
def Covers (l m : List Production) : Prop :=
  ∀ p ∈ m, ∃ q ∈ l, q.lhs.name = p.lhs.name ∧ q.rhs = p.rhs

instance (l m : List Production) : Decidable (Covers l m) := by
  unfold Covers
  infer_instance

private theorem contains_of_covers {s t : Symbol} {l m : List Production} (covers : Covers l m)
    {p : Production} (h : p ∈ (ofProductions t m).productions) :
    (ofProductions s l).productions.contains p = true := by
  rcases contains_pushEach.mp (OrderedSet.contains_of_mem h) with nothing | ⟨q, mem, same⟩
  · simp [ofStart, OrderedSet.contains, OrderedSet.empty] at nothing
  · obtain ⟨r, here, name, rhs⟩ := covers q mem
    refine contains_pushEach.mpr (.inr ⟨r, here, ?_⟩)
    rw [Production.compare_eq_iff] at same ⊢
    rw [name, rhs]
    exact same

private theorem productions_beq {s t : Symbol} {l m : List Production} (forth : Covers m l)
    (back : Covers l m) :
    ((ofProductions s l).productions == (ofProductions t m).productions) = true :=
  OrderedSet.beq_of_contains (fun _ => contains_of_covers forth) fun _ => contains_of_covers back

/-- Lists that cover each other give the same grammar. -/
theorem ofProductions_beq {s t : Symbol} {l m : List Production} (start : s.name = t.name)
    (forth : Covers m l) (back : Covers l m) : (ofProductions s l == ofProductions t m) = true := by
  obtain ⟨start_l, first_l, rules_l⟩ := parts_pushEach (ofStart s) l
  obtain ⟨start_m, first_m, rules_m⟩ := parts_pushEach (ofStart t) m
  have starts : (s == t) = true := Symbol.beq_iff_name_eq.mpr start
  have productions := productions_beq (s := s) (t := t) forth back
  unfold ofProductions at productions ⊢
  change (((ofStart s).pushEach l).start == ((ofStart t).pushEach m).start &&
    ((ofStart s).pushEach l).productions == ((ofStart t).pushEach m).productions &&
      ((ofStart s).pushEach l).firstTable == ((ofStart t).pushEach m).firstTable &&
        ((ofStart s).pushEach l).rules == ((ofStart t).pushEach m).rules) = true
  rw [productions, start_l, start_m, first_l, first_m, rules_l, rules_m]
  simp [ofStart, starts]

/-- The symbols of a production have the kinds that their names show, and its left-hand side is a
non-terminal. -/
def IsSpelledProduction (production : Production) : Prop :=
  production.Over Symbol.IsSpelled ∧ production.lhs.isNonTerminal = true

theorem isSpelled_ofProductions (start : Symbol) {productions : List Production}
    (spelled : ∀ p ∈ productions, IsSpelledProduction p) :
    (ofProductions start productions).IsSpelled :=
  pushEach_induction (fun _ p mem before =>
    before.push (spelled p mem).1.1 (spelled p mem).2 (spelled p mem).1.2) (isSpelled_ofStart start)

private theorem distinguishes_isSpelled : Distinguishes Symbol.IsSpelled := fun a b ha hb same => by
  rw [ha, hb, Symbol.compare_eq_iff_name_eq.mp same]

/-- A grammar made of spelled productions without empty names has just these productions. -/
theorem mem_ofProductions_iff (start : Symbol) {l : List Production}
    (spelled : ∀ p ∈ l, IsSpelledProduction p) (named : ∀ p ∈ l, ∀ s ∈ p.rhs, s.isEmpty = false)
    {p : Production} : p ∈ (ofProductions start l).productions ↔ p ∈ l := by
  have apart := Production.distinguishes_over distinguishes_isSpelled
  have kept : ∀ q ∈ l, (⟨q.lhs, q.rhs.filter (!·.isEmpty)⟩ : Production) = q := fun q mem => by
    have all : q.rhs.filter (!·.isEmpty) = q.rhs :=
      List.filter_eq_self.mpr fun s hs => by simp [named q mem s hs]
    rw [all]
  constructor
  · intro mem
    rcases contains_pushEach.mp (OrderedSet.contains_of_mem mem) with nothing | ⟨q, listed, same⟩
    · simp [ofStart, OrderedSet.contains, OrderedSet.empty] at nothing
    · rw [kept q listed] at same
      rwa [apart p q ((isSpelled_ofProductions start spelled).symbols p mem) (spelled q listed).1
        same]
  · intro listed
    have held : (ofProductions start l).productions.contains p = true := by
      refine contains_pushEach.mpr (.inr ⟨p, listed, ?_⟩)
      rw [kept p listed]
      exact Std.ReflCmp.compare_self
    obtain ⟨q, mem, same⟩ := OrderedSet.contains_iff.mp held
    rwa [apart p q (spelled p listed).1 ((isSpelled_ofProductions start spelled).symbols q mem) same]

/-- A list of spelled productions that another list covers, and that covers it, holds the productions
of that list with left-hand sides of the kinds that their names show. -/
theorem mem_iff_of_covers {l m : List Production} (spelled : ∀ p ∈ l, IsSpelledProduction p)
    (forth : Covers m l) (back : Covers l m) {p : Production} :
    p ∈ l ↔ ∃ q ∈ m, p = ⟨.ofName q.lhs.name, q.rhs⟩ := by
  constructor
  · intro mem
    obtain ⟨q, here, name, rhs⟩ := forth p mem
    refine ⟨q, here, ?_⟩
    rw [name, rhs, ← show p.lhs = .ofName p.lhs.name from (spelled p mem).1.1]
  · rintro ⟨q, mem, rfl⟩
    obtain ⟨p, here, name, rhs⟩ := back q mem
    rwa [← name, ← rhs, ← show p.lhs = .ofName p.lhs.name from (spelled p here).1.1]

theorem eq_of_parts {h : Grammar} (start : g.start = h.start)
    (productions : g.productions = h.productions) (first : g.firstTable = h.firstTable)
    (rules : g.rules = h.rules) : g = h := by
  cases g
  cases h
  cases start
  cases productions
  cases first
  cases rules
  rfl

/-- Spelled productions that cover each other give equal grammars. -/
theorem ofProductions_eq (start : Symbol) {l m : List Production}
    (left : ∀ p ∈ l, IsSpelledProduction p) (right : ∀ p ∈ m, IsSpelledProduction p)
    (forth : Covers m l) (back : Covers l m) : ofProductions start l = ofProductions start m := by
  have productions : (ofProductions start l).productions = (ofProductions start m).productions :=
    OrderedSet.eq_of_beq (Production.distinguishes_over distinguishes_isSpelled)
      (isSpelled_ofProductions start left).symbols (isSpelled_ofProductions start right).symbols
      (productions_beq forth back)
  obtain ⟨start_l, first_l, rules_l⟩ := parts_pushEach (ofStart start) l
  obtain ⟨start_m, first_m, rules_m⟩ := parts_pushEach (ofStart start) m
  exact eq_of_parts (start_l.trans start_m.symm) productions (first_l.trans first_m.symm)
    (rules_l.trans rules_m.symm)

end CanonicalLR.Grammar
