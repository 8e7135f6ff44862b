import CanonicalLR.ItemSet
import CanonicalLR.Proofs.ItemSet.Closure
import CanonicalLR.Proofs.OrderedSet.Grouping
import CanonicalLR.Proofs.Text.Split

/-!
What is listed of an item set. The order of items goes by their cores first, so the items of a core
stand next to each other, and a line that begins where the core changes is that of a core which has
not been there before.
-/

set_option autoImplicit false
set_option relaxedAutoImplicit false

namespace CanonicalLR

section Core

variable {a b : Item}

namespace Item

/-- Items are ordered by their cores, and by their lookaheads where these are the same. -/
theorem compare_eq_then :
    compare a b = (compare a.core b.core).then (compare a.lookahead b.lookahead) := by
  change (compare a.lhs b.lhs).then ((compare a.rhs b.rhs).then
    ((compare a.dot b.dot).then (compare a.lookahead b.lookahead))) =
      ((compare a.lhs b.lhs).then ((compare a.rhs b.rhs).then (compare a.dot b.dot))).then _
  rw [Ordering.then_assoc, Ordering.then_assoc]

theorem compare_of_core (lt : compare a.core b.core = .lt) : compare a b = .lt := by
  rw [compare_eq_then, lt]
  rfl

/-- Two items have one core if they are equal once they have one lookahead. -/
theorem sameCore_eq : a.sameCore b = (compare a.core b.core == .eq) := by
  let other : Item := { a with lookahead := b.lookahead }
  have core : compare other b = compare a.core b.core := by
    have self : compare b.lookahead b.lookahead = .eq := Std.ReflCmp.compare_self
    rw [compare_eq_then, self, Ordering.then_eq]
    rfl
  have parts : (other == b) = a.sameCore b := by
    change (a.lhs == b.lhs && (a.before == b.before &&
      (a.after == b.after && b.lookahead == b.lookahead))) = _
    rw [beq_self_eq_true, Bool.and_true, ← Bool.and_assoc]
    rfl
  have equal : (compare other b == .eq) = true ↔ (other == b) = true :=
    beq_iff_eq.trans Std.LawfulBEqOrd.compare_eq_iff_beq
  rw [← parts, ← core]
  exact (Bool.eq_iff_iff.mpr equal).symm

end Item

theorem Symbol.render_congr {s t : Symbol} (same : compare s t = .eq) : s.render = t.render := by
  rw [render, isEmpty, compare_eq_iff_name_eq.mp same]
  rfl

private theorem map_render_congr {symbols others : List Symbol}
    (same : compare symbols others = .eq) :
    symbols.map Symbol.render = others.map Symbol.render := by
  induction symbols generalizing others with
  | nil =>
    cases others with
    | nil => rfl
    | cons t others => cases same
  | cons s symbols ih =>
    cases others with
    | nil => cases same
    | cons t others =>
      rw [List.compare_cons_cons, Ordering.then_eq_eq] at same
      rw [List.map_cons, List.map_cons, Symbol.render_congr same.1, ih same.2]

/-- Cores that differ in nothing but the kinds of symbols are written in the same way. -/
theorem Core.render_congr {c d : Core} (same : compare c d = .eq) : c.render = d.render := by
  change compareLex (compareOn lhs) (compareLex (compareOn rhs) (compareOn dot)) c d = .eq at same
  rw [compareLex_eq_eq, compareLex_eq_eq] at same
  obtain ⟨heads, bodies, dots⟩ := same
  have dots : c.dot = d.dot := Std.LawfulEqOrd.compare_eq_iff_eq.mp dots
  rw [render, render, Symbol.render_congr heads, map_render_congr bodies, dots]

private theorem insertIdx_append {words others : List String} {word : String} :
    (words ++ others).insertIdx words.length word = words ++ word :: others := by
  induction words with
  | nil => rfl
  | cons first words ih =>
    rw [List.cons_append, List.length_cons, List.insertIdx_succ_cons, ih]
    rfl

/-- What is written of an item before its lookahead is its core. -/
theorem Item.renderCore_eq (item : Item) : item.renderCore = item.core.render := by
  have body : (item.rhs.map Symbol.render).insertIdx item.dot "·" =
      item.before.map Symbol.render ++ "·" :: item.after.map Symbol.render := by
    rw [rhs, dot, List.map_append, ← List.length_map (f := Symbol.render)]
    exact insertIdx_append
  change _ = " ".intercalate (item.lhs.render :: "->" ::
    (item.rhs.map Symbol.render).insertIdx item.dot "·")
  rw [body, Text.intercalate_eq_join]
  simp [renderCore, String.append_assoc, Function.comp_def]

end Core

namespace ItemSet

section ItemByItem

/-- What further items of a core add to its line. -/
private def tail (items : List Item) : String :=
  String.join (items.map fun item => " " ++ item.lookahead.render)

/-- What is written of further groups. -/
private def more (groups : List (List Item)) : String :=
  String.join (groups.map fun group => "\n" ++ renderGroup group)

private theorem tail_cons (item : Item) (items : List Item) :
    tail (item :: items) = " " ++ item.lookahead.render ++ tail items := String.join_cons

private theorem more_cons (group : List Item) (groups : List (List Item)) :
    more (group :: groups) = "\n" ++ renderGroup group ++ more groups := String.join_cons

private theorem renderGroup_cons (item : Item) (items : List Item) :
    renderGroup (item :: items) = item.render ++ tail items := by
  change item.renderCore ++ ", " ++ renderSymbols " " ((item :: items).map (·.lookahead)) = _
  rw [renderSymbols, List.map_cons, List.map_cons, Text.intercalate_eq_join, List.map_map, List.map_map,
    Item.render, tail, String.append_assoc, String.append_assoc, String.append_assoc]
  rfl

/-- What is written behind an item is the rest of its line and the lines after it. -/
private theorem exists_splitBy (item : Item) (items : List Item) :
    ∃ group groups, (item :: items).splitBy Item.sameCore = (item :: group) :: groups ∧
      writeFrom (some item) items = tail group ++ more groups := by
  induction items generalizing item with
  | nil => exact ⟨[], [], rfl, rfl⟩
  | cons next items ih =>
    obtain ⟨group, groups, split, written⟩ := ih next
    by_cases same : item.sameCore next = true
    · refine ⟨next :: group, groups, OrderedSet.splitBy_cons_cons same split, ?_⟩
      rw [writeFrom, written, writeNext, if_pos same, tail_cons]
      simp only [String.append_assoc]
    · have apart : ∀ last ∈ [item].getLast?, last.sameCore next = false := by simpa using same
      refine ⟨[], (next :: group) :: groups, ?_, ?_⟩
      · rw [← List.singleton_append, List.splitBy_append_cons _ apart, split]
        rfl
      · calc writeFrom (some item) (next :: items)
            = "\n" ++ next.render ++ (tail group ++ more groups) := by
              rw [writeFrom, written, writeNext, if_neg same]
          _ = "\n" ++ renderGroup (next :: group) ++ more groups := by
              simp only [renderGroup_cons, String.append_assoc]
          _ = tail [] ++ more ((next :: group) :: groups) := (more_cons _ _).symm

/-- Item by item the same is written as in lines. -/
theorem write_eq_render (set : ItemSet) : set.write = set.render := by
  unfold write render
  cases set.toList with
  | nil => rfl
  | cons item items =>
    obtain ⟨group, groups, split, written⟩ := exists_splitBy item items
    rw [split, List.map_cons, Text.intercalate_eq_join, List.map_map, writeFrom, written,
      ← String.append_assoc]
    exact congrArg (· ++ more groups) (renderGroup_cons item group).symm

end ItemByItem

section Lines

variable {set : ItemSet} {core : Core}

/-- The items of a core stand in the order of their lookaheads. -/
theorem toList_lookaheadsOf : (set.lookaheadsOf core).toList =
    (set.withKey Item.core core).map (·.lookahead) := by
  refine OrderedSet.toList_ofList (List.pairwise_map.mpr ?_)
  refine List.Pairwise.imp_of_mem (fun {a b} ha hb lt => ?_) (set.ascending.filter _)
  have left := (OrderedSet.mem_withKey.mp ha).2
  have right := (OrderedSet.mem_withKey.mp hb).2
  rw [Item.compare_eq_then, Std.TransCmp.eq_trans left (Std.OrientedCmp.eq_comm.mp right)] at lt
  exact lt

private theorem renderGroup_withKey (mem : core ∈ set.cores) :
    renderGroup (set.withKey Item.core core) = set.line core := by
  rw [line, toList_lookaheadsOf]
  cases members : set.withKey Item.core core with
  | nil => exact absurd members (OrderedSet.withKey_ne_nil mem)
  | cons item items =>
    -- the core that is kept among equal ones need not be the first item's
    have first : item ∈ set.withKey Item.core core := members ▸ List.mem_cons_self ..
    rw [← Core.render_congr (OrderedSet.mem_withKey.mp first).2, ← Item.renderCore_eq]
    rfl

/-- A set is written in the lines of its cores. -/
theorem render_eq (set : ItemSet) :
    set.render = "\n".intercalate (set.cores.toList.map set.line) := by
  have neighbours : Item.sameCore = fun a b => compare a.core b.core == .eq :=
    funext fun a => funext fun b => Item.sameCore_eq
  rw [render, neighbours, OrderedSet.splitBy_toList fun a b => Item.compare_of_core,
    List.map_map]
  exact congrArg _ (List.map_congr_left fun core mem => renderGroup_withKey mem)

private theorem newline_not_mem_render {s : Symbol} (unbroken : '\n' ∉ s.name.toList) :
    '\n' ∉ s.render.toList := by
  unfold Symbol.render
  split
  · decide
  · exact unbroken

/-- A line has no line feed if there is none in the names of the items. -/
private theorem newline_not_mem_line
    (unbroken : ∀ item ∈ set, ∀ s ∈ item.symbols, '\n' ∉ s.name.toList)
    (mem : core ∈ set.cores) : '\n' ∉ (set.line core).toList := by
  obtain ⟨item, here, rfl⟩ := List.mem_map.mp (OrderedSet.mem_of_mem_ofList mem)
  have dotted : '\n' ∉ item.core.render.toList := by
    refine Text.newline_not_mem_intercalate (by decide) fun word inside => ?_
    rcases List.mem_cons.mp inside with rfl | inside
    · exact newline_not_mem_render (unbroken item here _ (List.mem_cons_self ..))
    rcases List.mem_cons.mp inside with rfl | inside
    · decide
    rcases List.eq_or_mem_of_mem_insertIdx inside with rfl | inside
    · decide
    · obtain ⟨s, within, rfl⟩ := List.mem_map.mp inside
      refine newline_not_mem_render (unbroken item here s (List.mem_cons_of_mem _ ?_))
      exact List.mem_append_left _ within
  have rest : '\n' ∉ (renderSymbols " " (set.lookaheadsOf item.core).toList).toList := by
    refine Text.newline_not_mem_intercalate (by decide) fun word inside => ?_
    obtain ⟨s, listed, rfl⟩ := List.mem_map.mp inside
    rw [toList_lookaheadsOf] at listed
    obtain ⟨other, grouped, rfl⟩ := List.mem_map.mp listed
    refine newline_not_mem_render (unbroken other (OrderedSet.mem_withKey.mp grouped).1 _ ?_)
    simp [Item.symbols]
  simpa [line] using ⟨dotted, rest⟩

/-- A set whose names hold no line feed is written in one line for every core of its items, in the
order of the cores. The line has the lookaheads of all items with the core and of no others, in their
order. So it is when the set is written item by item. -/
theorem linesOf_render (set : ItemSet)
    (unbroken : ∀ item ∈ set, ∀ s ∈ item.symbols, '\n' ∉ s.name.toList) :
    set.write = set.render ∧ Text.linesOf set.render = set.cores.toList.map set.line ∧
      (∀ core, set.cores.contains core = true ↔ ∃ item ∈ set, compare item.core core = .eq) ∧
      ∀ core s, s ∈ set.lookaheadsOf core ↔
        ∃ item ∈ set, compare item.core core = .eq ∧ item.lookahead = s := by
  refine ⟨write_eq_render set, ?_, fun core => OrderedSet.contains_keys, fun core s => ?_⟩
  · rw [render_eq]
    refine Text.linesOf_intercalate (fun text mem => ?_) fun blank => ?_
    · obtain ⟨core, here, rfl⟩ := List.mem_map.mp mem
      exact newline_not_mem_line unbroken here
    · obtain ⟨core, -, empty⟩ := List.map_eq_singleton_iff.mp blank
      simp [line] at empty
  · rw [OrderedSet.mem_def, toList_lookaheadsOf, List.mem_map]
    simp only [OrderedSet.mem_withKey, and_assoc]

/-- Sums, of which the second and the third differ in the kind of the left-hand side too. -/
def sums : ItemSet :=
  let sum (before after : List Symbol) (lookahead : String) : Item :=
    ⟨.nonTerminal "E", before, after, .terminal lookahead⟩
  let addends : List Symbol := [.nonTerminal "E", .terminal "+", .nonTerminal "T"]
  .ofList [⟨.nonTerminal "T", [.terminal "n"], [], .terminal "+"⟩, sum [] addends "+",
    { sum [] addends "n" with lhs := .terminal "E" }, sum (addends.take 1) (addends.drop 1) "$",
    sum [] addends "$", ⟨.nonTerminal "A", [], [], .empty⟩]

theorem linesOf_render_sums : (∀ item ∈ sums, ∀ s ∈ item.symbols, '\n' ∉ s.name.toList) ∧
    Text.linesOf sums.render =
      ["A -> ·, ε", "E -> · E + T, $ + n", "E -> E · + T, $", "T -> n ·, +"] := by
  have unbroken : ∀ item ∈ sums, ∀ s ∈ item.symbols, '\n' ∉ s.name.toList := by
    change ∀ item ∈ sums.toList, _
    decide +kernel
  obtain ⟨-, lines, -⟩ := linesOf_render sums unbroken
  exact ⟨unbroken, lines.trans (by decide +kernel)⟩

end Lines

end ItemSet

end CanonicalLR
