/-!
Lists traversed by a function that can fail. The traversal succeeds if the function succeeds on every
element, and then it holds the results in order; otherwise it fails as the function does on the first
element that it fails on.
-/

set_option autoImplicit false
set_option relaxedAutoImplicit false

namespace CanonicalLR

variable {α β ε : Type} {f : α → Except ε β} {l : List α}

/-- A traversal succeeds on the first element and then on the others. -/
theorem exists_of_mapM_cons {a : α} {results : List β} (h : (a :: l).mapM f = .ok results) :
    ∃ b more, f a = .ok b ∧ l.mapM f = .ok more ∧ results = b :: more := by
  rw [List.mapM_cons] at h
  cases first : f a with
  | error e =>
    rw [first] at h
    cases h
  | ok b =>
    cases rest : l.mapM f with
    | error e =>
      rw [first, rest] at h
      cases h
    | ok more =>
      rw [first, rest] at h
      exact ⟨b, more, rfl, rfl, (Except.ok.inj h).symm⟩

/-- A traversal that succeeds has the result of every element in its place. -/
theorem mapM_eq_ok {results : List β} (h : l.mapM f = .ok results) :
    results.length = l.length ∧
      ∀ (i : Nat) x, l[i]? = some x → ∃ y, f x = .ok y ∧ results[i]? = some y := by
  induction l generalizing results with
  | nil =>
    obtain rfl := Except.ok.inj h
    exact ⟨rfl, fun i x found => by simp at found⟩
  | cons a l ih =>
    obtain ⟨b, more, first, rest, rfl⟩ := exists_of_mapM_cons h
    obtain ⟨length, values⟩ := ih rest
    refine ⟨by simp [length], fun i x found => ?_⟩
    cases i with
    | zero =>
      obtain rfl := Option.some.inj found
      exact ⟨b, first, rfl⟩
    | succ i => exact values i x found

theorem exists_mapM_eq_ok (h : ∀ x ∈ l, ∃ y, f x = .ok y) : ∃ results, l.mapM f = .ok results := by
  induction l with
  | nil => exact ⟨[], rfl⟩
  | cons a l ih =>
    obtain ⟨head, tail⟩ := List.forall_mem_cons.mp h
    obtain ⟨b, first⟩ := head
    obtain ⟨more, rest⟩ := ih tail
    exact ⟨b :: more, by rw [List.mapM_cons, first, rest]; rfl⟩

/-- Of elements in ascending order of a key, the first one on which the function fails has the least
key. -/
theorem mapM_eq_error_iff {key : α → Nat} (ascending : l.Pairwise fun a b => key a < key b) {e : ε} :
    l.mapM f = .error e ↔
      ∃ x ∈ l, f x = .error e ∧ ∀ y ∈ l, key y < key x → ∃ z, f y = .ok z := by
  induction l with
  | nil =>
    refine ⟨fun failed => ?_, nofun⟩
    cases failed
  | cons a l ih =>
    obtain ⟨above, rest⟩ := List.pairwise_cons.mp ascending
    rw [List.mapM_cons]
    cases first : f a with
    | error e' =>
      constructor
      · intro failed
        obtain rfl := Except.error.inj failed
        refine ⟨a, List.mem_cons_self .., first, fun y mem less => ?_⟩
        rcases List.mem_cons.mp mem with rfl | mem
        · exact absurd less (Nat.lt_irrefl _)
        · exact absurd less (Nat.not_lt_of_gt (above y mem))
      · rintro ⟨x, mem, fails, before⟩
        rcases List.mem_cons.mp mem with rfl | mem
        · cases first.symm.trans fails
          rfl
        · obtain ⟨z, succeeds⟩ := before a (List.mem_cons_self ..) (above x mem)
          cases first.symm.trans succeeds
    | ok b =>
      have tail : (do let r ← l.mapM f; pure (b :: r) : Except ε (List β)) = .error e ↔
          l.mapM f = .error e := by
        cases l.mapM f with
        | error e' => exact Iff.rfl
        | ok more =>
          constructor
          · intro failed
            cases failed
          · intro failed
            cases failed
      refine tail.trans ((ih rest).trans ?_)
      constructor
      · rintro ⟨x, mem, fails, before⟩
        refine ⟨x, List.mem_cons_of_mem _ mem, fails, fun y here less => ?_⟩
        rcases List.mem_cons.mp here with rfl | here
        · exact ⟨b, first⟩
        · exact before y here less
      · rintro ⟨x, mem, fails, before⟩
        rcases List.mem_cons.mp mem with rfl | mem
        · cases first.symm.trans fails
        · exact ⟨x, mem, fails, fun y here less => before y (List.mem_cons_of_mem _ here) less⟩

/-- A change of the errors of all elements is a change of the traversal's error. -/
theorem mapM_mapError (change : ε → ε) :
    (l.mapM fun x => (f x).mapError change) = (l.mapM f).mapError change := by
  induction l with
  | nil => rfl
  | cons a l ih =>
    rw [List.mapM_cons, List.mapM_cons, ih]
    cases f a with
    | error e => rfl
    | ok b => cases l.mapM f <;> rfl

end CanonicalLR
