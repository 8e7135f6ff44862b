import CanonicalLR.Proofs.OrderedSet
import CanonicalLR.SymbolMap

/-!
Symbols by name and by kind, and lookups in finite maps from symbols. Among the symbols of one kind
the order tells different ones apart. A lookup after a change sees the change under its name and
nothing else; a map of a list of entries holds the last value of every name.
-/

set_option autoImplicit false
set_option relaxedAutoImplicit false

namespace CanonicalLR

universe u

namespace Symbol

instance : Std.LawfulBEqOrd Symbol where
  compare_eq_iff_beq := compare_eq_iff_name_eq.trans beq_iff_name_eq.symm

theorem eq_of_name_of_kind {a b : Symbol} (name : a.name = b.name) (kind : a.kind = b.kind) :
    a = b := by
  cases a
  cases b
  cases name
  cases kind
  rfl

theorem isTerminal_iff {a : Symbol} : a.isTerminal = true ↔ a.kind = .terminal := beq_iff_eq

theorem isNonTerminal_iff {a : Symbol} : a.isNonTerminal = true ↔ a.kind = .nonTerminal :=
  beq_iff_eq

theorem isTerminal_eq_not (a : Symbol) : a.isTerminal = !a.isNonTerminal := by
  unfold isTerminal isNonTerminal
  cases a.kind <;> rfl

theorem distinguishes_terminal : Distinguishes fun a : Symbol => a.isTerminal = true :=
  fun _ _ ha hb same => eq_of_name_of_kind (compare_eq_iff_name_eq.mp same)
    ((isTerminal_iff.mp ha).trans (isTerminal_iff.mp hb).symm)

theorem distinguishes_nonTerminal : Distinguishes fun a : Symbol => a.isNonTerminal = true :=
  fun _ _ ha hb same => eq_of_name_of_kind (compare_eq_iff_name_eq.mp same)
    ((isNonTerminal_iff.mp ha).trans (isNonTerminal_iff.mp hb).symm)

theorem eq_empty_of_isEmpty {a : Symbol} (terminal : a.isTerminal = true)
    (h : a.isEmpty = true) : a = empty :=
  eq_of_name_of_kind (beq_iff_eq.mp h) (isTerminal_iff.mp terminal)

theorem eq_endMark_of_isEndMark {a : Symbol} (terminal : a.isTerminal = true)
    (h : a.isEndMark = true) : a = endMark :=
  eq_of_name_of_kind (beq_iff_eq.mp h) (isTerminal_iff.mp terminal)

end Symbol

namespace SymbolMap

variable {ν : Type u}

/-- Nothing is found among entries whose keys are all above the one looked for. -/
private theorem find?_eq_none_of_below {key : Symbol} {l : List (Symbol × ν)}
    (below : ∀ entry ∈ l, compare key entry.1 = .lt) :
    (l.find? fun entry => key == entry.1) = none := by
  refine List.find?_eq_none.mpr fun entry mem same => ?_
  have equal := Std.LawfulBEqOrd.compare_eq_iff_beq.mpr same
  rw [below entry mem] at equal
  cases equal

private theorem below_of_lt {key k : Symbol} {v : ν} {l : List (Symbol × ν)}
    (ascending : ((k, v) :: l).Pairwise fun a b => compare a.1 b.1 = .lt)
    (lt : compare key k = .lt) : ∀ entry ∈ (k, v) :: l, compare key entry.1 = .lt := by
  obtain ⟨above, _⟩ := List.pairwise_cons.mp ascending
  exact List.forall_mem_cons.mpr ⟨lt, fun entry mem => Std.TransCmp.lt_trans lt (above entry mem)⟩

private theorem find?_alterIn (key other : Symbol) (f : Option ν → ν) {l : List (Symbol × ν)}
    (ascending : l.Pairwise fun a b => compare a.1 b.1 = .lt) :
    ((alterIn key f l).find? fun entry => other == entry.1).map Prod.snd =
      if other == key then some (f ((l.find? fun entry => key == entry.1).map Prod.snd))
      else (l.find? fun entry => other == entry.1).map Prod.snd := by
  induction l with
  | nil => by_cases h : other == key <;> simp [alterIn, h]
  | cons head l ih =>
    obtain ⟨k, v⟩ := head
    unfold alterIn
    split
    · next lt =>
      rw [find?_eq_none_of_below (below_of_lt ascending lt)]
      by_cases h : other == key <;> simp [List.find?_cons, h]
    · next eq =>
      have same : key == k := Std.LawfulBEqOrd.compare_eq_iff_beq.mp eq
      have names : (other == k) = (other == key) := (BEq.congr_right same).symm
      by_cases h : other == key <;> simp [names, h, same]
    · next gt =>
      have different : (key == k) = false :=
        Std.LawfulBEqOrd.not_compare_eq_iff_beq_eq_false.mp (by simp [gt])
      by_cases at_head : other == k
      · have away : (other == key) = false :=
          BEq.neq_of_beq_of_neq at_head (BEq.symm_false different)
        simp [at_head, away]
      · simp only [List.find?_cons, at_head, different]
        exact ih (List.pairwise_cons.mp ascending).2

instance [BEq ν] [ReflBEq ν] : ReflBEq (SymbolMap ν) where
  rfl {m} := beq_self_eq_true m.toList

/-- A lookup after a change sees it under the changed name only. -/
theorem find?_alter (m : SymbolMap ν) (key other : Symbol) (f : Option ν → ν) :
    (m.alter key f).find? other = if other == key then some (f (m.find? key)) else m.find? other :=
  find?_alterIn key other f m.ascending

theorem find?_set (m : SymbolMap ν) (key other : Symbol) (value : ν) :
    (m.set key value).find? other = if other == key then some value else m.find? other :=
  find?_alter m key other fun _ => value

theorem find?_congr (m : SymbolMap ν) {a b : Symbol} (h : a.name = b.name) :
    m.find? a = m.find? b := by
  have same : ∀ c : Symbol, (a == c) = (b == c) := fun c =>
    BEq.congr_left (Symbol.beq_iff_name_eq.mpr h)
  simp [find?, same]

private theorem find?_foldl_set (entries : List (Symbol × ν)) (m : SymbolMap ν) (key : Symbol) :
    (entries.foldl (fun m entry => m.set entry.1 entry.2) m).find? key =
      ((entries.reverse.find? fun entry => key == entry.1).map Prod.snd).or (m.find? key) := by
  induction entries generalizing m with
  | nil => simp
  | cons entry entries ih =>
    rw [List.foldl_cons, ih, find?_set, List.reverse_cons, List.find?_append]
    cases entries.reverse.find? fun entry => key == entry.1 with
    | some found => simp
    | none => by_cases h : key == entry.1 <;> simp [h]

/-- A map of a list of entries holds under every name the last value that the list has for it. -/
theorem find?_ofList (entries : List (Symbol × ν)) (key : Symbol) :
    (ofList entries).find? key =
      (entries.reverse.find? fun entry => key == entry.1).map Prod.snd := by
  unfold ofList
  rw [find?_foldl_set]
  simp

theorem exists_mem_of_find? {m : SymbolMap ν} {key : Symbol} {value : ν}
    (h : m.find? key = some value) : ∃ k, (k, value) ∈ m.toList ∧ key.name = k.name := by
  obtain ⟨⟨k, v⟩, found, rfl⟩ := Option.map_eq_some_iff.mp h
  have same : (key == k) = true :=
    by simpa using List.find?_some found
  exact ⟨k, List.mem_of_find?_eq_some found, Symbol.beq_iff_name_eq.mp same⟩

theorem find?_of_mem {m : SymbolMap ν} {key : Symbol} {value : ν} (h : (key, value) ∈ m.toList) :
    m.find? key = some value := by
  obtain ⟨l, ascending⟩ := m
  change (l.find? fun entry => key == entry.1).map Prod.snd = _
  change (key, value) ∈ l at h
  induction l with
  | nil => cases h
  | cons head l ih =>
    obtain ⟨below, rest⟩ := List.pairwise_cons.mp ascending
    rcases List.mem_cons.mp h with rfl | mem
    · simp
    · have lt := below _ mem
      have different : (key == head.1) = false := by
        rw [← Bool.not_eq_true, ← Std.LawfulBEqOrd.compare_eq_iff_beq, Std.OrientedCmp.eq_comm, lt]
        simp
      rw [List.find?_cons, different]
      exact ih rest mem

private theorem alterIn_of_above {key : Symbol} {f : Option ν → ν} {l : List (Symbol × ν)}
    (above : ∀ entry ∈ l, compare entry.1 key = .lt) : alterIn key f l = l ++ [(key, f none)] := by
  induction l with
  | nil => rfl
  | cons head l ih =>
    obtain ⟨k, v⟩ := head
    obtain ⟨here, rest⟩ := List.forall_mem_cons.mp above
    have gt : compare key k = .gt := Std.OrientedCmp.gt_iff_lt.mpr here
    unfold alterIn
    rw [gt]
    exact congrArg ((k, v) :: ·) (ih rest)

/-- A value under a key above all others comes last. -/
theorem toList_set_of_above {m : SymbolMap ν} {key : Symbol} {value : ν}
    (above : ∀ entry ∈ m.toList, compare entry.1 key = .lt) :
    (m.set key value).toList = m.toList ++ [(key, value)] :=
  alterIn_of_above above

theorem key_of_mem_set {m : SymbolMap ν} {key : Symbol} {value : ν} {entry : Symbol × ν}
    (h : entry ∈ (m.set key value).toList) :
    entry.1 = key ∨ ∃ other ∈ m.toList, entry.1 = other.1 :=
  eq_or_mem_of_mem_alterIn h

private theorem alterIn_eq_self {key : Symbol} {f : Option ν → ν} {l : List (Symbol × ν)}
    {value : ν} (ascending : l.Pairwise fun a b => compare a.1 b.1 = .lt)
    (h : (l.find? fun entry => key == entry.1).map Prod.snd = some value)
    (same : f (some value) = value) : alterIn key f l = l := by
  induction l with
  | nil => cases h
  | cons head l ih =>
    obtain ⟨k, v⟩ := head
    by_cases here : key == k
    · simp only [List.find?_cons, here, Option.map_some, Option.some.injEq] at h
      subst h
      simp [alterIn, Std.LawfulBEqOrd.compare_eq_iff_beq.mpr here, same]
    · simp only [List.find?_cons, here] at h
      unfold alterIn
      split
      · next lt =>
        obtain ⟨_, above⟩ := List.forall_mem_cons.mp (below_of_lt ascending lt)
        rw [find?_eq_none_of_below above] at h
        cases h
      · next eq => exact absurd (Std.LawfulBEqOrd.compare_eq_iff_beq.mp eq) here
      · rw [ih (List.pairwise_cons.mp ascending).2 h]

/-- A change that leaves the value there leaves the map. -/
theorem alter_eq_self {m : SymbolMap ν} {key : Symbol} {f : Option ν → ν} {value : ν}
    (h : m.find? key = some value) (same : f (some value) = value) : m.alter key f = m := by
  obtain ⟨l, ascending⟩ := m
  simp only [alter, alterIn_eq_self ascending h same]

private theorem find?_of_beq_list [BEq ν] {l m : List (Symbol × ν)} (h : (l == m) = true)
    (key : Symbol) : Option.Rel (fun v w => (v == w) = true)
      ((l.find? fun entry => key == entry.1).map Prod.snd)
      ((m.find? fun entry => key == entry.1).map Prod.snd) := by
  induction l generalizing m with
  | nil => cases m with
    | nil => exact .none
    | cons _ _ => cases h
  | cons a l ih =>
    cases m with
    | nil => cases h
    | cons b m =>
      change ((a.1 == b.1 && a.2 == b.2) && l == m) = true at h
      simp only [Bool.and_eq_true] at h
      obtain ⟨⟨keys, values⟩, tails⟩ := h
      have names : (key == a.1) = (key == b.1) := BEq.congr_right keys
      simp only [List.find?_cons, names]
      split
      · exact .some values
      · exact ih tails

theorem find?_of_beq [BEq ν] {m n : SymbolMap ν} (h : (m == n) = true) (key : Symbol) :
    Option.Rel (fun v w => (v == w) = true) (m.find? key) (n.find? key) :=
  find?_of_beq_list h key

/-- What a map of a list holds under a name is the value of an entry of that name. -/
theorem exists_entry_of_find?_ofList {entries : List (Symbol × ν)} {key : Symbol} {value : ν}
    (h : (ofList entries).find? key = some value) :
    ∃ entry ∈ entries, key.name = entry.1.name ∧ entry.2 = value := by
  rw [find?_ofList] at h
  obtain ⟨entry, found, rfl⟩ := Option.map_eq_some_iff.mp h
  have same : (key == entry.1) = true := by simpa using List.find?_some found
  exact ⟨entry, List.mem_reverse.mp (List.mem_of_find?_eq_some found),
    Symbol.beq_iff_name_eq.mp same, rfl⟩

/-- A map of a list holds something under the name of every entry. -/
theorem exists_find?_ofList {entries : List (Symbol × ν)} {key : Symbol} {entry : Symbol × ν}
    (mem : entry ∈ entries) (name : key.name = entry.1.name) :
    ∃ value, (ofList entries).find? key = some value := by
  rw [find?_ofList]
  cases found : entries.reverse.find? fun entry => key == entry.1 with
  | none =>
    have absent := List.find?_eq_none.mp found entry (List.mem_reverse.mpr mem)
    exact absurd (Symbol.beq_iff_name_eq.mpr name) absent
  | some other => exact ⟨other.2, rfl⟩

/-- Where the keys are told apart, the entries are what is found under them. -/
theorem mem_toList_iff {P : Symbol → Prop} (apart : Distinguishes P) {m : SymbolMap ν}
    (keys : ∀ entry ∈ m.toList, P entry.1) {key : Symbol} (known : P key) {value : ν} :
    (key, value) ∈ m.toList ↔ m.find? key = some value := by
  refine ⟨find?_of_mem, fun found => ?_⟩
  obtain ⟨k, mem, name⟩ := exists_mem_of_find? found
  rwa [apart key k known (keys _ mem) (Symbol.compare_eq_iff_name_eq.mpr name)]

theorem nodup_toList (m : SymbolMap ν) : m.toList.Nodup :=
  m.ascending.imp fun {_ b} lt same => by
    have self : compare b.1 b.1 = .eq := Std.ReflCmp.compare_self
    rw [same, self] at lt
    cases lt

/-- The keys of a map of a list are keys of its entries. -/
theorem key_of_mem_ofList {entries : List (Symbol × ν)} {entry : Symbol × ν}
    (h : entry ∈ (ofList entries).toList) : ∃ other ∈ entries, entry.1 = other.1 := by
  have grown : ∀ (entries : List (Symbol × ν)) (m : SymbolMap ν),
      entry ∈ (entries.foldl (fun m entry => m.set entry.1 entry.2) m).toList →
        (∃ other ∈ m.toList, entry.1 = other.1) ∨ ∃ other ∈ entries, entry.1 = other.1 := by
    intro entries
    induction entries with
    | nil => exact fun m mem => .inl ⟨entry, mem, rfl⟩
    | cons first entries ih =>
      intro m mem
      rcases ih _ mem with ⟨other, here, same⟩ | ⟨other, later, same⟩
      · rcases key_of_mem_set here with key | ⟨old, before, key⟩
        · exact .inr ⟨first, List.mem_cons_self .., same.trans key⟩
        · exact .inl ⟨old, before, same.trans key⟩
      · exact .inr ⟨other, List.mem_cons_of_mem _ later, same⟩
  exact (grown entries empty h).resolve_left nofun

/-- Where the names ascend, a map that numbers them holds the place of every name. -/
theorem find?_ofList_zipIdx {l : List Symbol}
    (ascending : l.Pairwise fun a b => compare a b = .lt) {n : Nat} {key : Symbol} {i : Nat} :
    (ofList (l.zipIdx n)).find? key = some i ↔
      n ≤ i ∧ ∃ k, l[i - n]? = some k ∧ key.name = k.name := by
  have placed : ∀ {i : Nat}, (ofList (l.zipIdx n)).find? key = some i →
      n ≤ i ∧ ∃ k, l[i - n]? = some k ∧ key.name = k.name := by
    intro i h
    obtain ⟨⟨k, value⟩, mem, name, rfl⟩ := exists_entry_of_find?_ofList h
    obtain ⟨low, found⟩ := List.mk_mem_zipIdx_iff_le_and_getElem?_sub.mp mem
    exact ⟨low, k, found, name⟩
  refine ⟨placed, ?_⟩
  rintro ⟨low, k, found, name⟩
  have entry : (k, i) ∈ l.zipIdx n := List.mk_mem_zipIdx_iff_le_and_getElem?_sub.mpr ⟨low, found⟩
  obtain ⟨value, held⟩ := exists_find?_ofList entry name
  obtain ⟨low', k', found', name'⟩ := placed held
  obtain ⟨bound, rfl⟩ := List.getElem?_eq_some_iff.mp found
  obtain ⟨bound', rfl⟩ := List.getElem?_eq_some_iff.mp found'
  have same := name.symm.trans name'
  have apart := List.pairwise_iff_getElem.mp ascending
  -- one name has one place
  rcases Nat.lt_trichotomy (i - n) (value - n) with less | equal | more
  · have lt := apart _ _ bound bound' less
    rw [Symbol.compare_eq_iff_name_eq.mpr same] at lt
    cases lt
  · rw [held]
    exact congrArg some (by omega)
  · have lt := apart _ _ bound' bound more
    rw [Symbol.compare_eq_iff_name_eq.mpr same.symm] at lt
    cases lt

end SymbolMap

end CanonicalLR
