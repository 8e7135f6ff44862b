import CanonicalLR.Symbol

/-!
Finite maps from symbols, as lists of entries with strictly ascending keys. As symbols are told
apart by name, a key that comes again in the other kind meets the entry of its name; the entry then
keeps the key it has.
-/

set_option autoImplicit false
set_option relaxedAutoImplicit false

namespace CanonicalLR

universe u

/-- A finite map, given by its keys and values in strictly ascending order of the keys. -/
structure SymbolMap (ν : Type u) where
  toList : List (Symbol × ν)
  ascending : toList.Pairwise fun a b => compare a.1 b.1 = .lt
  deriving DecidableEq

namespace SymbolMap

variable {ν : Type u}

instance [BEq ν] : BEq (SymbolMap ν) where
  beq m n := m.toList == n.toList

def empty : SymbolMap ν := ⟨[], .nil⟩

def size (m : SymbolMap ν) : Nat := m.toList.length

def isEmpty (m : SymbolMap ν) : Bool := m.toList.isEmpty

/-- The value under the name of `key`. -/
def find? (m : SymbolMap ν) (key : Symbol) : Option ν :=
  (m.toList.find? fun entry => key == entry.1).map Prod.snd

/-- Sets the value under a name, in a list of entries with ascending keys, to what `f` makes of the
present one. -/
def alterIn (key : Symbol) (f : Option ν → ν) : List (Symbol × ν) → List (Symbol × ν)
  | [] => [(key, f none)]
  | (k, v) :: l =>
    match compare key k with
    | .lt => (key, f none) :: (k, v) :: l
    | .eq => (k, f (some v)) :: l
    | .gt => (k, v) :: alterIn key f l

/-- The keys are those there were, and perhaps the given one. -/
theorem eq_or_mem_of_mem_alterIn {key : Symbol} {f : Option ν → ν} {l : List (Symbol × ν)}
    {entry : Symbol × ν} (h : entry ∈ alterIn key f l) :
    entry.1 = key ∨ ∃ other ∈ l, entry.1 = other.1 := by
  induction l with
  | nil => exact .inl (by simp_all [alterIn])
  | cons head l ih =>
    unfold alterIn at h
    split at h
    · rcases List.mem_cons.mp h with rfl | h
      · exact .inl rfl
      · exact .inr ⟨entry, h, rfl⟩
    · rcases List.mem_cons.mp h with rfl | h
      · exact .inr ⟨head, List.mem_cons_self .., rfl⟩
      · exact .inr ⟨entry, List.mem_cons_of_mem _ h, rfl⟩
    · rcases List.mem_cons.mp h with rfl | h
      · exact .inr ⟨head, List.mem_cons_self .., rfl⟩
      · exact (ih h).imp_right fun ⟨other, mem, same⟩ =>
          ⟨other, List.mem_cons_of_mem _ mem, same⟩

theorem pairwise_alterIn (key : Symbol) (f : Option ν → ν) {l : List (Symbol × ν)}
    (h : l.Pairwise fun a b => compare a.1 b.1 = .lt) :
    (alterIn key f l).Pairwise fun a b => compare a.1 b.1 = .lt := by
  induction l with
  | nil => exact List.pairwise_singleton ..
  | cons head l ih =>
    obtain ⟨below, rest⟩ := List.pairwise_cons.mp h
    unfold alterIn
    split
    · next lt =>
      refine List.pairwise_cons.mpr ⟨fun x hx => ?_, h⟩
      rcases List.mem_cons.mp hx with rfl | hx
      · exact lt
      · exact Std.TransCmp.lt_trans lt (below x hx)
    · exact List.pairwise_cons.mpr ⟨below, rest⟩
    · next gt =>
      refine List.pairwise_cons.mpr ⟨fun x hx => ?_, ih rest⟩
      rcases eq_or_mem_of_mem_alterIn hx with same | ⟨other, mem, same⟩
      · rw [same]
        exact Std.OrientedCmp.gt_iff_lt.mp gt
      · rw [same]
        exact below other mem

/-- Sets the value under a name to what `f` makes of the present one; a new name gets an entry in
its place, one that is there keeps its key. -/
def alter (m : SymbolMap ν) (key : Symbol) (f : Option ν → ν) : SymbolMap ν :=
  ⟨alterIn key f m.toList, pairwise_alterIn key f m.ascending⟩

/-- Puts a value under a name in place of the present one. -/
def set (m : SymbolMap ν) (key : Symbol) (value : ν) : SymbolMap ν := m.alter key fun _ => value

/-- The map of a list of entries; of those under one name the first gives the key, the last the
value. -/
def ofList (entries : List (Symbol × ν)) : SymbolMap ν :=
  entries.foldl (fun m entry => m.set entry.1 entry.2) empty

@[simp] theorem find?_empty (key : Symbol) : (empty : SymbolMap ν).find? key = none := rfl

end SymbolMap

end CanonicalLR
