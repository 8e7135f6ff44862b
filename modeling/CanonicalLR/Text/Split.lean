/-!
Cutting a text at a mark. The pieces of a text hold all of it but the marks.
-/

set_option autoImplicit false
set_option relaxedAutoImplicit false

namespace CanonicalLR.Text

/-- The text before and the text after the first occurrence of a mark. -/
def cut (mark : List Char) : List Char → Option (List Char × List Char)
  | [] => none
  | c :: text =>
    if mark.isPrefixOf (c :: text) then some ([], (c :: text).drop mark.length)
    else (cut mark text).map fun (before, after) => (c :: before, after)

/-- What stands after a mark of one or more characters is shorter than the text. -/
theorem length_after_lt_of_cut {m : Char} {ms text before after : List Char}
    (h : cut (m :: ms) text = some (before, after)) : after.length < text.length := by
  induction text generalizing before with
  | nil => simp [cut] at h
  | cons c text ih =>
    unfold cut at h
    split at h
    · cases h
      simp only [List.length_drop, List.length_cons]
      omega
    · obtain ⟨⟨b, a⟩, found, same⟩ := Option.map_eq_some_iff.mp h
      cases same
      exact Nat.lt_succ_of_lt (ih found)

/-- The pieces between the occurrences of the mark `m :: ms`, found from the left. -/
def splitOn (m : Char) (ms text : List Char) : List (List Char) :=
  match found : cut (m :: ms) text with
  | none => [text]
  | some (before, after) =>
    have : after.length < text.length := length_after_lt_of_cut found
    before :: splitOn m ms after
termination_by text.length

def splitAt (mark : Char) : List Char → List (List Char)
  | [] => [[]]
  | c :: text =>
    if c = mark then [] :: splitAt mark text
    else
      match splitAt mark text with
      | [] => [[c]]
      | piece :: pieces => (c :: piece) :: pieces

/-- The lines of a text, without the line feeds between them. -/
def lines (text : List Char) : List (List Char) := splitAt '\n' text

theorem splitAt_ne_nil (mark : Char) (text : List Char) : splitAt mark text ≠ [] := by
  cases text with
  | nil => simp [splitAt]
  | cons c text =>
    unfold splitAt
    split
    · simp
    · split <;> simp

/-- With the mark between neighbours the pieces give the text back. -/
theorem intercalate_splitAt (mark : Char) (text : List Char) :
    List.intercalate [mark] (splitAt mark text) = text := by
  induction text with
  | nil => simp [splitAt, List.intercalate]
  | cons c text ih =>
    unfold splitAt
    split
    · next same =>
      cases found : splitAt mark text with
      | nil => exact absurd found (splitAt_ne_nil mark text)
      | cons piece pieces =>
        rw [found] at ih
        simp [List.intercalate, same] at ih ⊢
        exact ih
    · cases found : splitAt mark text with
      | nil => exact absurd found (splitAt_ne_nil mark text)
      | cons piece pieces =>
        rw [found] at ih
        cases pieces <;> simp [List.intercalate] at ih ⊢ <;> exact ih

end CanonicalLR.Text
