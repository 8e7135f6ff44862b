import CanonicalLR.OrderedSet
import Mathlib.Data.List.Nodup
import Mathlib.Data.List.Pairwise
import Mathlib.Data.List.Perm.Subperm

/-!
What insertion does to a set. In general a set is known by `contains`, which does not tell apart
elements that compare equal; among values that the order tells apart, `contains` is membership.
Adding elements leaves a set as it is or makes it larger, and a set is no larger than a list in
which each of its elements has an equal.
-/

set_option autoImplicit false
set_option relaxedAutoImplicit false

namespace CanonicalLR

universe u

variable {α : Type u} [Ord α]

/-- Of the values with a property no two different ones compare equal. -/
def Distinguishes (P : α → Prop) : Prop := ∀ a b, P a → P b → compare a b = .eq → a = b

namespace OrderedSet

theorem contains_iff {s : OrderedSet α} {a : α} :
    s.contains a = true ↔ ∃ b ∈ s, compare a b = .eq := by
  simp [contains, mem_def]

theorem ext_toList {s t : OrderedSet α} (h : s.toList = t.toList) : s = t := by
  cases s
  cases t
  cases h
  rfl

@[simp] theorem not_mem_empty {a : α} : a ∉ (empty : OrderedSet α) := List.not_mem_nil

theorem mem_singleton {a b : α} : a ∈ singleton b ↔ a = b := List.mem_singleton

theorem mem_filter {s : OrderedSet α} {p : α → Bool} {a : α} :
    a ∈ s.filter p ↔ a ∈ s ∧ p a = true := List.mem_filter

/-- Among values that the order tells apart, what a set contains is in it. -/
theorem mem_of_contains {P : α → Prop} (apart : Distinguishes P) {s : OrderedSet α} {a : α}
    (inside : ∀ b ∈ s, P b) (here : P a) (h : s.contains a = true) : a ∈ s := by
  obtain ⟨b, mem, same⟩ := contains_iff.mp h
  rw [apart a b here (inside b mem) same]
  exact mem

section Place

variable {a : α} {l m : List α}

theorem insertInto_of_below (below : ∀ b ∈ l, compare a b = .lt) : insertInto a l = a :: l := by
  cases l with
  | nil => rfl
  | cons b l => rw [insertInto, below b (List.mem_cons_self ..)]

/-- What is above all elements of a part is put behind that part. -/
theorem insertInto_append_of_above (above : ∀ b ∈ l, compare a b = .gt) :
    insertInto a (l ++ m) = l ++ insertInto a m := by
  induction l with
  | nil => rfl
  | cons b l ih =>
    obtain ⟨first, others⟩ := List.forall_mem_cons.mp above
    rw [List.cons_append, insertInto, first]
    exact congrArg _ (ih others)

/-- What is below all elements of a part is put before that part. -/
theorem insertInto_append_of_below (below : ∀ b ∈ m, compare a b = .lt) :
    insertInto a (l ++ m) = insertInto a l ++ m := by
  induction l with
  | nil => exact insertInto_of_below below
  | cons b l ih =>
    rw [List.cons_append, insertInto, insertInto]
    cases compare a b with
    | lt => rfl
    | eq => rfl
    | gt => exact congrArg _ ih

end Place

private theorem insertInto_eq_or_length (a : α) (l : List α) :
    insertInto a l = l ∨ (insertInto a l).length = l.length + 1 := by
  induction l with
  | nil => exact .inr rfl
  | cons b l ih =>
    unfold insertInto
    split
    · exact .inr rfl
    · exact .inl rfl
    · rcases ih with same | longer
      · exact .inl (by rw [same])
      · exact .inr (by simp [longer])

variable [Std.TransOrd α]

theorem contains_of_mem {s : OrderedSet α} {a : α} (h : a ∈ s) : s.contains a = true :=
  contains_iff.mpr ⟨a, h, Std.ReflCmp.compare_self⟩

private theorem any_insertInto {a x : α} {l : List α} :
    ((insertInto a l).any fun b => compare x b == .eq) =
      (compare x a == .eq || l.any fun b => compare x b == .eq) := by
  induction l with
  | nil => simp [insertInto]
  | cons b l ih =>
    unfold insertInto
    split
    · simp
    · next same =>
      have transfer : compare x a = compare x b := Std.TransCmp.congr_right same
      simp [transfer]
    · simp only [List.any_cons, ih]
      cases compare x a == .eq <;> simp

theorem contains_insert {s : OrderedSet α} {a x : α} :
    (s.insert a).contains x = true ↔ compare x a = .eq ∨ s.contains x = true := by
  unfold contains insert
  rw [any_insertInto]
  simp

theorem contains_insertAll {s : OrderedSet α} {elements : List α} {x : α} :
    (s.insertAll elements).contains x = true ↔
      s.contains x = true ∨ ∃ a ∈ elements, compare x a = .eq := by
  induction elements generalizing s with
  | nil => simp
  | cons a elements ih =>
    rw [insertAll_cons, ih, contains_insert]
    simp only [List.mem_cons, exists_eq_or_imp]
    tauto

theorem contains_ofList {elements : List α} {x : α} :
    (ofList elements).contains x = true ↔ ∃ a ∈ elements, compare x a = .eq := by
  induction elements with
  | nil => simp [contains, empty]
  | cons a elements ih =>
    rw [ofList_cons, contains_insert, ih]
    simp

/-- Among values that the order tells apart, adding elements adds just these. -/
theorem mem_insertAll {P : α → Prop} (apart : Distinguishes P) {s : OrderedSet α}
    {elements : List α} (inside : ∀ b ∈ s, P b) (added : ∀ b ∈ elements, P b) {x : α} :
    x ∈ s.insertAll elements ↔ x ∈ s ∨ x ∈ elements := by
  refine ⟨mem_or_mem_of_mem_insertAll, fun h => ?_⟩
  have all : ∀ b ∈ s.insertAll elements, P b := fun b hb =>
    (mem_or_mem_of_mem_insertAll hb).elim (inside b) (added b)
  refine mem_of_contains apart all (h.elim (inside x) (added x)) (contains_insertAll.mpr ?_)
  exact h.imp contains_of_mem fun mem => ⟨x, mem, Std.ReflCmp.compare_self⟩

theorem mem_ofList {P : α → Prop} (apart : Distinguishes P) {elements : List α}
    (inside : ∀ b ∈ elements, P b) {x : α} : x ∈ ofList elements ↔ x ∈ elements := by
  refine ⟨mem_of_mem_ofList, fun h => ?_⟩
  refine mem_of_contains apart (fun b hb => inside b (mem_of_mem_ofList hb)) (inside x h) ?_
  exact contains_ofList.mpr ⟨x, h, Std.ReflCmp.compare_self⟩

theorem mem_insertAll_of_mem {s : OrderedSet α} {elements : List α} {x : α} (h : x ∈ s) :
    x ∈ s.insertAll elements := by
  induction elements generalizing s with
  | nil => exact h
  | cons a elements ih => exact ih (mem_insert_of_mem h)

theorem insert_eq_or_size_lt (s : OrderedSet α) (a : α) :
    s.insert a = s ∨ s.size < (s.insert a).size := by
  rcases insertInto_eq_or_length a s.toList with same | longer
  · exact .inl (ext_toList same)
  · exact .inr (by simp [size, insert, longer])

/-- Adding elements leaves a set as it is or makes it larger. -/
theorem insertAll_eq_or_size_lt (s : OrderedSet α) (elements : List α) :
    s.insertAll elements = s ∨ s.size < (s.insertAll elements).size := by
  induction elements generalizing s with
  | nil => exact .inl rfl
  | cons a elements ih =>
    rw [insertAll_cons]
    rcases s.insert_eq_or_size_lt a with same | larger
    · rw [same]
      exact ih s
    · rcases ih (s.insert a) with rest | rest
      · exact .inr (by rwa [rest])
      · exact .inr (Nat.lt_trans larger rest)

/-- What leaves a set as it is when it is added was contained in the set. -/
theorem contains_of_insertAll_eq {s : OrderedSet α} {elements : List α}
    (h : s.insertAll elements = s) {a : α} (mem : a ∈ elements) : s.contains a = true := by
  rw [← h]
  exact contains_insertAll.mpr (.inr ⟨a, mem, Std.ReflCmp.compare_self⟩)

theorem eq_of_compare_eq {s : OrderedSet α} {a b : α} (ha : a ∈ s) (hb : b ∈ s)
    (same : compare a b = .eq) : a = b := by
  obtain ⟨i, hi, rfl⟩ := List.mem_iff_getElem.mp ha
  obtain ⟨j, hj, rfl⟩ := List.mem_iff_getElem.mp hb
  have ascending := List.pairwise_iff_getElem.mp s.ascending
  rcases Nat.lt_trichotomy i j with lt | rfl | gt
  · rw [ascending i j hi hj lt] at same
    cases same
  · rfl
  · rw [Std.OrientedCmp.eq_comm, ascending j i hj hi gt] at same
    cases same

theorem nodup (s : OrderedSet α) : s.toList.Nodup := by
  refine s.ascending.imp fun {a b} lt eq => ?_
  have self : compare b b = .eq := Std.ReflCmp.compare_self
  rw [eq, self] at lt
  cases lt

/-- Sets with the same elements are equal. -/
theorem ext_mem {s t : OrderedSet α} (h : ∀ a, a ∈ s ↔ a ∈ t) : s = t := by
  have same : s.toList.Perm t.toList := (List.perm_ext_iff_of_nodup s.nodup t.nodup).mpr h
  refine ext_toList (same.eq_of_pairwise (fun a b _ _ lt gt => ?_) s.ascending t.ascending)
  rw [Std.OrientedCmp.gt_iff_lt.mpr gt] at lt
  cases lt

/-- A set is no larger than a list in which every element of the set has an equal. -/
theorem size_le_length {s : OrderedSet α} {values : List α}
    (covered : ∀ a ∈ s, ∃ b ∈ values, compare a b = .eq) : s.size ≤ values.length := by
  classical
  have choice : ∀ a : α, ∃ b, a ∈ s → b ∈ values ∧ compare a b = .eq := fun a => by
    by_cases h : a ∈ s
    · obtain ⟨b, mem, same⟩ := covered a h
      exact ⟨b, fun _ => ⟨mem, same⟩⟩
    · exact ⟨a, fun h' => absurd h' h⟩
  choose f spec using choice
  have injective : ∀ a ∈ s.toList, ∀ b ∈ s.toList, f a = f b → a = b := by
    intro a ha b hb same
    refine eq_of_compare_eq ha hb (Std.TransCmp.eq_trans (spec a ha).2 ?_)
    rw [same]
    exact Std.OrientedCmp.eq_comm.mp (spec b hb).2
  have distinct : (s.toList.map f).Nodup := s.nodup.map_on injective
  have inside : s.toList.map f ⊆ values := fun b hb => by
    obtain ⟨a, ha, rfl⟩ := List.mem_map.mp hb
    exact (spec a ha).1
  simpa [size] using (List.subperm_of_subset distinct inside).length_le

private theorem not_lt_head {a b : α} {l : List α}
    (ascending : (b :: l).Pairwise fun a b => compare a b = .lt)
    (covered : ∃ c ∈ b :: l, compare a c = .eq) : compare a b ≠ .lt := by
  intro lt
  obtain ⟨c, mem, same⟩ := covered
  have less : compare a c = .lt := by
    rcases List.mem_cons.mp mem with rfl | mem
    · exact lt
    · exact Std.TransCmp.lt_trans lt ((List.pairwise_cons.mp ascending).1 c mem)
  rw [same] at less
  cases less

/-- With equal heads, what has an equal in an ascending list has it in the tail. -/
private theorem covered_tail {a b c : α} {l m : List α} (same : compare a b = .eq)
    (ascending : (a :: l).Pairwise fun a b => compare a b = .lt) (mem : c ∈ l)
    (covered : ∃ d ∈ b :: m, compare c d = .eq) : ∃ d ∈ m, compare c d = .eq := by
  obtain ⟨d, hd, equal⟩ := covered
  rcases List.mem_cons.mp hd with rfl | hd
  · have less := (List.pairwise_cons.mp ascending).1 c mem
    rw [Std.TransCmp.eq_trans same (Std.OrientedCmp.eq_comm.mp equal)] at less
    cases less
  · exact ⟨d, hd, equal⟩

section Comparison

variable [BEq α] [Std.LawfulBEqOrd α]

private theorem beq_of_covered {l m : List α} (left : l.Pairwise fun a b => compare a b = .lt)
    (right : m.Pairwise fun a b => compare a b = .lt)
    (forth : ∀ a ∈ l, ∃ b ∈ m, compare a b = .eq) (back : ∀ b ∈ m, ∃ a ∈ l, compare b a = .eq) :
    (l == m) = true := by
  induction l generalizing m with
  | nil =>
    cases m with
    | nil => rfl
    | cons b m => obtain ⟨a, mem, _⟩ := back b (List.mem_cons_self ..); cases mem
  | cons a l ih =>
    cases m with
    | nil => obtain ⟨b, mem, _⟩ := forth a (List.mem_cons_self ..); cases mem
    | cons b m =>
      have same : compare a b = .eq := by
        cases order : compare a b with
        | eq => rfl
        | lt => exact absurd order (not_lt_head right (forth a (List.mem_cons_self ..)))
        | gt =>
          have lt := Std.OrientedCmp.gt_iff_lt.mp order
          exact absurd lt (not_lt_head left (back b (List.mem_cons_self ..)))
      have tails : (l == m) = true :=
        ih (List.pairwise_cons.mp left).2 (List.pairwise_cons.mp right).2
          (fun c hc => covered_tail same left hc (forth c (List.mem_cons_of_mem a hc)))
          (fun c hc => covered_tail (Std.OrientedCmp.eq_comm.mp same) right hc
            (back c (List.mem_cons_of_mem b hc)))
      change (a == b && l == m) = true
      rw [Std.LawfulBEqOrd.compare_eq_iff_beq.mp same, tails]
      rfl

/-- Sets that contain one another's elements are the same set. -/
theorem beq_of_contains {s t : OrderedSet α} (forth : ∀ a ∈ s, t.contains a = true)
    (back : ∀ a ∈ t, s.contains a = true) : (s == t) = true :=
  beq_of_covered s.ascending t.ascending (fun a ha => contains_iff.mp (forth a ha))
    (fun a ha => contains_iff.mp (back a ha))

omit [Std.TransOrd α] in
private theorem eq_of_beq_list {P : α → Prop} (apart : Distinguishes P) {l m : List α}
    (left : ∀ a ∈ l, P a) (right : ∀ a ∈ m, P a) (h : (l == m) = true) : l = m := by
  induction l generalizing m with
  | nil => cases m with
    | nil => rfl
    | cons b m => cases h
  | cons a l ih =>
    cases m with
    | nil => cases h
    | cons b m =>
      change (a == b && l == m) = true at h
      obtain ⟨head, tail⟩ := Bool.and_eq_true_iff.mp h
      simp only [List.forall_mem_cons] at left right
      rw [apart a b left.1 right.1 (Std.LawfulBEqOrd.compare_eq_iff_beq.mpr head),
        ih left.2 right.2 tail]

omit [Std.TransOrd α] in
/-- Sets of values that the order tells apart are equal if they are the same set. -/
theorem eq_of_beq {P : α → Prop} (apart : Distinguishes P) {s t : OrderedSet α}
    (left : ∀ a ∈ s, P a) (right : ∀ a ∈ t, P a) (h : (s == t) = true) : s = t :=
  ext_toList (eq_of_beq_list apart left right h)

omit [Ord α] [Std.TransOrd α] [Std.LawfulBEqOrd α] in
theorem length_eq_of_beq {l m : List α} (h : (l == m) = true) : l.length = m.length := by
  induction l generalizing m with
  | nil => cases m with
    | nil => rfl
    | cons b m => cases h
  | cons a l ih =>
    cases m with
    | nil => cases h
    | cons b m =>
      change (a == b && l == m) = true at h
      simp [ih (Bool.and_eq_true_iff.mp h).2]

omit [Std.TransOrd α] [Std.LawfulBEqOrd α] in
theorem size_eq_of_beq {s t : OrderedSet α} (h : (s == t) = true) : s.size = t.size :=
  length_eq_of_beq h

omit [Std.TransOrd α] [Std.LawfulBEqOrd α] in
/-- Every set is the same set as itself, as every list is. -/
instance [ReflBEq α] : ReflBEq (OrderedSet α) where
  rfl {s} := beq_self_eq_true s.toList

instance : EquivBEq (OrderedSet α) where
  symm {s t} same := BEq.symm (a := s.toList) (b := t.toList) same
  trans {s t u} left right := BEq.trans (a := s.toList) (b := t.toList) (c := u.toList) left right

end Comparison

end OrderedSet

end CanonicalLR
