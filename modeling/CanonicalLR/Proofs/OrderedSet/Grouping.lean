import CanonicalLR.OrderedSet
import CanonicalLR.Proofs.OrderedSet
import Mathlib.Data.List.SplitBy

/-!
Elements grouped by a key. Where the order of the elements goes by their keys first, the elements of
one key stand next to each other in a set, so that it is enough to compare neighbours.
-/

set_option autoImplicit false
set_option relaxedAutoImplicit false

namespace CanonicalLR.OrderedSet

universe u v

variable {α : Type u}

/-- An element that is related to the next one comes into its group. -/
theorem splitBy_cons_cons {r : α → α → Bool} {a b : α} {l group : List α} {groups : List (List α)}
    (related : r a b = true) (split : (b :: l).splitBy r = (b :: group) :: groups) :
    (a :: b :: l).splitBy r = (a :: b :: group) :: groups := by
  obtain ⟨whole, nonempty, chains, apart⟩ := List.splitBy_eq_iff.mp split
  refine List.splitBy_eq_iff.mpr ⟨by rw [whole]; rfl, ?_, ?_, ?_⟩
  · simpa using nonempty
  · obtain ⟨first, others⟩ := List.forall_mem_cons.mp chains
    exact List.forall_mem_cons.mpr ⟨List.isChain_cons_cons.mpr ⟨related, first⟩, others⟩
  · simpa [List.isChain_cons] using apart

variable {β : Type v} [Ord α] [Std.TransOrd α] [Ord β] [Std.TransOrd β] {s : OrderedSet α}
  {key : α → β} {k : β}

/-- A list that is ascending is the set of it. -/
theorem toList_ofList {l : List α} (ascending : l.Pairwise fun a b => compare a b = .lt) :
    (ofList l).toList = l := by
  induction l with
  | nil => rfl
  | cons a l ih =>
    obtain ⟨below, rest⟩ := List.pairwise_cons.mp ascending
    change insertInto a (ofList l).toList = _
    rw [ih rest]
    exact insertInto_of_below below

omit [Std.TransOrd α] [Std.TransOrd β] in
theorem mem_withKey {a : α} : a ∈ s.withKey key k ↔ a ∈ s ∧ compare (key a) k = .eq := by
  simp [withKey, mem_def]

omit [Std.TransOrd α] in
theorem contains_keys : (s.keys key).contains k = true ↔ ∃ a ∈ s, compare (key a) k = .eq := by
  rw [keys, contains_ofList]
  simp only [List.mem_map, exists_exists_and_eq_and]
  exact exists_congr fun a => and_congr_right fun _ => Std.OrientedCmp.eq_comm

omit [Std.TransOrd α] in
/-- A key is that of an element. -/
theorem withKey_ne_nil (h : k ∈ s.keys key) : s.withKey key k ≠ [] := by
  obtain ⟨a, mem, same⟩ := contains_keys.mp (contains_of_mem h)
  exact List.ne_nil_of_mem (mem_withKey.mpr ⟨mem, same⟩)

omit [Std.TransOrd α] in
/-- Elements with keys that are in order are told apart by their keys. -/
private theorem compare_of_withKey {j : β} {a b : α} (lt : compare j k = .lt)
    (ha : a ∈ s.withKey key j) (hb : b ∈ s.withKey key k) : compare (key a) (key b) = .lt := by
  rw [Std.TransCmp.congr_left (mem_withKey.mp ha).2, Std.TransCmp.congr_right (mem_withKey.mp hb).2]
  exact lt

section Ordered

variable (coarser : ∀ a b : α, compare (key a) (key b) = .lt → compare a b = .lt)
include coarser

/-- The elements of the first key come first, then those of the next one, and so on. -/
private theorem toList_eq_flatMap : s.toList = (s.keys key).toList.flatMap (s.withKey key) := by
  have ascending : ((s.keys key).toList.flatMap (s.withKey key)).Pairwise
      fun a b => compare a b = .lt := by
    refine List.pairwise_flatMap.mpr ⟨fun k _ => s.ascending.filter _, ?_⟩
    refine (s.keys key).ascending.imp fun {j k} lt a ha b hb => ?_
    exact coarser a b (compare_of_withKey lt ha hb)
  refine congrArg toList (ext_mem (t := ⟨_, ascending⟩) fun a => ?_)
  change a ∈ s ↔ a ∈ (s.keys key).toList.flatMap (s.withKey key)
  rw [List.mem_flatMap]
  constructor
  · intro mem
    have key_mem : (s.keys key).contains (key a) = true :=
      contains_keys.mpr ⟨a, mem, Std.ReflCmp.compare_self⟩
    obtain ⟨k, here, same⟩ := contains_iff.mp key_mem
    exact ⟨k, here, mem_withKey.mpr ⟨mem, same⟩⟩
  · rintro ⟨k, -, here⟩
    exact (mem_withKey.mp here).1

/-- Splitting a set between neighbours with different keys gives one group for every key. -/
theorem splitBy_toList : s.toList.splitBy (fun a b => compare (key a) (key b) == .eq) =
    (s.keys key).toList.map (s.withKey key) := by
  rw [toList_eq_flatMap coarser, List.flatMap_def]
  apply List.splitBy_flatten
  · intro empty
    obtain ⟨k, here, none⟩ := List.mem_map.mp empty
    exact withKey_ne_nil here none
  · intro group mem
    obtain ⟨k, -, rfl⟩ := List.mem_map.mp mem
    refine List.Pairwise.isChain (List.pairwise_of_forall_mem_list fun a ha b hb => ?_)
    have left := (mem_withKey.mp ha).2
    have right := Std.OrientedCmp.eq_comm.mp (mem_withKey.mp hb).2
    simpa using Std.TransCmp.eq_trans left right
  · refine List.Pairwise.isChain (List.pairwise_map.mpr ?_)
    refine List.Pairwise.imp_of_mem (fun {j k} hj hk lt => ?_) (s.keys key).ascending
    refine ⟨withKey_ne_nil hj, withKey_ne_nil hk, ?_⟩
    rw [compare_of_withKey lt (List.getLast_mem _) (List.head_mem _)]
    rfl

end Ordered

end CanonicalLR.OrderedSet
