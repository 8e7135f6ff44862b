/-!
Finite sets as strictly ascending lists, for element types in which different values may stand at
one place of the order. Two rules decide which of them a set holds. Insertion keeps the element that
is already there (`insert`, `insertAll`); a set that is gathered from a list at once keeps the last
of the elements that compare equal (`ofList`).
-/

set_option autoImplicit false
set_option relaxedAutoImplicit false

namespace CanonicalLR

universe u

/-- A finite set, given by its elements in strictly ascending order. -/
structure OrderedSet (α : Type u) [Ord α] where
  toList : List α
  ascending : toList.Pairwise fun a b => compare a b = .lt
  deriving DecidableEq

namespace OrderedSet

variable {α : Type u} [Ord α]

instance [BEq α] : BEq (OrderedSet α) where
  beq s t := s.toList == t.toList

instance : Membership α (OrderedSet α) where
  mem s a := a ∈ s.toList

theorem mem_def {s : OrderedSet α} {a : α} : a ∈ s ↔ a ∈ s.toList := Iff.rfl

instance [DecidableEq α] (s : OrderedSet α) (a : α) : Decidable (a ∈ s) :=
  inferInstanceAs (Decidable (a ∈ s.toList))

def empty : OrderedSet α := ⟨[], .nil⟩

def singleton (a : α) : OrderedSet α := ⟨[a], List.pairwise_singleton _ a⟩

def size (s : OrderedSet α) : Nat := s.toList.length

def isEmpty (s : OrderedSet α) : Bool := s.toList.isEmpty

/-- Whether an element that compares equal is in the set. -/
def contains (s : OrderedSet α) (a : α) : Bool := s.toList.any fun b => compare a b == .eq

def filter (p : α → Bool) (s : OrderedSet α) : OrderedSet α :=
  ⟨s.toList.filter p, s.ascending.filter p⟩

/-- Puts an element in its place in an ascending list, unless one is there that compares equal. -/
def insertInto (a : α) : List α → List α
  | [] => [a]
  | b :: l =>
    match compare a b with
    | .lt => a :: b :: l
    | .eq => b :: l
    | .gt => b :: insertInto a l

theorem eq_or_mem_of_mem_insertInto {a x : α} {l : List α} (h : x ∈ insertInto a l) :
    x = a ∨ x ∈ l := by
  induction l with
  | nil => simpa [insertInto] using h
  | cons b l ih =>
    unfold insertInto at h
    split at h
    · simpa using h
    · exact .inr h
    · rcases List.mem_cons.mp h with rfl | h
      · exact .inr (List.mem_cons_self ..)
      · exact (ih h).imp_right (List.mem_cons_of_mem b)

theorem mem_insertInto_of_mem {a x : α} {l : List α} (h : x ∈ l) : x ∈ insertInto a l := by
  induction l with
  | nil => cases h
  | cons b l ih =>
    unfold insertInto
    split
    · exact List.mem_cons_of_mem a h
    · exact h
    · rcases List.mem_cons.mp h with rfl | h
      · exact List.mem_cons_self ..
      · exact List.mem_cons_of_mem b (ih h)

theorem pairwise_insertInto [Std.TransOrd α] (a : α) {l : List α}
    (h : l.Pairwise fun a b => compare a b = .lt) :
    (insertInto a l).Pairwise fun a b => compare a b = .lt := by
  induction l with
  | nil => exact List.pairwise_singleton _ a
  | cons b l ih =>
    obtain ⟨below, rest⟩ := List.pairwise_cons.mp h
    unfold insertInto
    split
    · next lt =>
      refine List.pairwise_cons.mpr ⟨fun x hx => ?_, h⟩
      rcases List.mem_cons.mp hx with rfl | hx
      · exact lt
      · exact Std.TransCmp.lt_trans lt (below x hx)
    · exact h
    · next gt =>
      refine List.pairwise_cons.mpr ⟨fun x hx => ?_, ih rest⟩
      rcases eq_or_mem_of_mem_insertInto hx with rfl | hx
      · exact Std.OrientedCmp.gt_iff_lt.mp gt
      · exact below x hx

variable [Std.TransOrd α]

/-- Adds an element, unless one is there that compares equal. -/
def insert (s : OrderedSet α) (a : α) : OrderedSet α :=
  ⟨insertInto a s.toList, pairwise_insertInto a s.ascending⟩

def insertAll (s : OrderedSet α) (elements : List α) : OrderedSet α := elements.foldl insert s

/-- The set of a list: of elements that compare equal the last one is kept. -/
def ofList (elements : List α) : OrderedSet α := elements.foldr (fun a s => s.insert a) empty

theorem eq_or_mem_of_mem_insert {s : OrderedSet α} {a x : α} (h : x ∈ s.insert a) :
    x = a ∨ x ∈ s :=
  eq_or_mem_of_mem_insertInto h

theorem mem_insert_of_mem {s : OrderedSet α} {a x : α} (h : x ∈ s) : x ∈ s.insert a :=
  mem_insertInto_of_mem h

@[simp] theorem insertAll_nil (s : OrderedSet α) : s.insertAll [] = s := rfl

@[simp] theorem insertAll_cons (s : OrderedSet α) (a : α) (elements : List α) :
    s.insertAll (a :: elements) = (s.insert a).insertAll elements := rfl

@[simp] theorem ofList_nil : ofList ([] : List α) = empty := rfl

@[simp] theorem ofList_cons (a : α) (elements : List α) :
    ofList (a :: elements) = (ofList elements).insert a := rfl

theorem mem_or_mem_of_mem_insertAll {s : OrderedSet α} {elements : List α} {x : α}
    (h : x ∈ s.insertAll elements) : x ∈ s ∨ x ∈ elements := by
  induction elements generalizing s with
  | nil => exact .inl h
  | cons a elements ih =>
    rcases ih h with h | h
    · rcases eq_or_mem_of_mem_insert h with rfl | h
      · exact .inr (List.mem_cons_self ..)
      · exact .inl h
    · exact .inr (List.mem_cons_of_mem a h)

theorem mem_of_mem_ofList {elements : List α} {x : α} (h : x ∈ ofList elements) :
    x ∈ elements := by
  induction elements with
  | nil => cases h
  | cons a elements ih =>
    rcases eq_or_mem_of_mem_insert h with rfl | h
    · exact List.mem_cons_self ..
    · exact List.mem_cons_of_mem a (ih h)

end OrderedSet

namespace OrderedSet

universe v

variable {α : Type u} {β : Type v} [Ord α] [Ord β]

/-- The keys of the elements. -/
def keys [Std.TransOrd β] (s : OrderedSet α) (key : α → β) : OrderedSet β :=
  ofList (s.toList.map key)

/-- The elements with a certain key, in their order. -/
def withKey (s : OrderedSet α) (key : α → β) (k : β) : List α :=
  s.toList.filter fun a => compare (key a) k == .eq

end OrderedSet

end CanonicalLR
