import CanonicalLR.Proofs.Text.Split
import CanonicalLR.Text.Characters
import Mathlib.Data.List.DropRight
import Mathlib.Data.List.TakeWhile

/-!
Trimming. A text is trimmed to nothing exactly if it is blank; blank characters that are put behind a
text are trimmed with those at its end, and trimming leaves what stands before a character that is
not blank. What is trimmed are the margins of a text: one that is not blank is its margins with what is
left of it between them.
-/

set_option autoImplicit false
set_option relaxedAutoImplicit false

namespace CanonicalLR.Text

/-- All characters of a text are blank ones. -/
def IsBlankText (text : List Char) : Prop := ∀ c ∈ text, isBlank c = true

-- not left to instance search, which can find one that goes through all characters there are
instance (text : List Char) : Decidable (IsBlankText text) :=
  decidable_of_iff (text.all isBlank = true) List.all_eq_true

variable {text blanks : List Char}

/-- Trimming the end is the library's dropping from the right. -/
theorem trimEnd_eq_rdropWhile (text : List Char) : trimEnd text = text.rdropWhile isBlank := rfl

theorem trimEnd_eq_nil_iff : trimEnd text = [] ↔ IsBlankText text := List.rdropWhile_eq_nil_iff

theorem trimEnd_trimEnd (text : List Char) : trimEnd (trimEnd text) = trimEnd text :=
  List.rdropWhile_idempotent isBlank text

theorem trimEnd_prefix (text : List Char) : trimEnd text <+: text :=
  List.rdropWhile_prefix isBlank text

theorem trimEnd_append_of_blank (text : List Char) (h : IsBlankText blanks) :
    trimEnd (text ++ blanks) = trimEnd text := by
  induction blanks using List.reverseRecOn with
  | nil => rw [List.append_nil]
  | append_singleton blanks c ih =>
    have last : isBlank c = true := h c (List.mem_append_right _ (List.mem_singleton_self c))
    have others : IsBlankText blanks := fun d hd => h d (List.mem_append_left _ hd)
    rw [← List.append_assoc, trimEnd_eq_rdropWhile, List.rdropWhile_concat_pos _ _ _ last]
    exact ih others

/-- The first character is trimmed only with all others. -/
theorem trimEnd_cons (c : Char) (text : List Char) :
    trimEnd (c :: text) = if trimEnd text = [] then trimEnd [c] else c :: trimEnd text := by
  split
  · next blank => exact trimEnd_append_of_blank [c] (trimEnd_eq_nil_iff.mp blank)
  · next seen =>
    induction text using List.reverseRecOn with
    | nil => exact absurd rfl seen
    | append_singleton text last ih =>
      rw [← List.cons_append]
      simp only [trimEnd_eq_rdropWhile, List.rdropWhile_concat] at seen ih ⊢
      split
      · next blank =>
        rw [if_pos blank] at seen
        exact ih seen
      · rfl

/-- What stands before a character that is not blank is not trimmed. -/
theorem trimEnd_append_cons (front back : List Char) {c : Char} (seen : isBlank c = false) :
    trimEnd (front ++ c :: back) = front ++ c :: trimEnd back := by
  induction front with
  | nil =>
    have single : trimEnd [c] = [c] := List.rdropWhile_concat_neg isBlank [] c (by simp [seen])
    rw [List.nil_append, List.nil_append, trimEnd_cons, single]
    split
    · next blank => rw [blank]
    · rfl
  | cons d front ih =>
    rw [List.cons_append, trimEnd_cons, ih, if_neg (by simp)]
    rfl

/-- Only a blank text is trimmed to nothing. -/
theorem trim_eq_nil_iff : trim text = [] ↔ IsBlankText text := by
  constructor
  · intro nothing
    have blank : IsBlankText (trimEnd text) := List.dropWhile_eq_nil_iff.mp nothing
    have whole := trimEnd_eq_nil_iff.mpr blank
    rw [trimEnd_trimEnd] at whole
    exact trimEnd_eq_nil_iff.mp whole
  · intro blank
    rw [trim, trimEnd_eq_nil_iff.mpr blank]
    rfl

/-- A text without blank characters is as it is after trimming. -/
theorem trim_eq_self (h : ∀ c ∈ text, isBlank c = false) : trim text = text := by
  have whole : trimEnd text = text := List.rdropWhile_eq_self_iff.mpr fun nonempty => by
    simp [h _ (List.getLast_mem nonempty)]
  rw [trim, whole, trimStart]
  cases text with
  | nil => rfl
  | cons c text => simp [h c (List.mem_cons_self ..)]

/-- The blank characters before the first other one. -/
def lead (text : List Char) : List Char := text.takeWhile isBlank

/-- The blank characters behind the last other one. -/
def trail (text : List Char) : List Char := text.rtakeWhile isBlank

/-- A line without its margins. -/
def trimmed (line : String) : String := String.ofList (trim line.toList)

@[simp] theorem toList_trimmed (line : String) : (trimmed line).toList = trim line.toList :=
  String.toList_ofList

theorem isBlank_of_mem_lead {c : Char} (h : c ∈ lead text) : isBlank c = true :=
  List.mem_takeWhile_imp h

theorem isBlank_of_mem_trail {c : Char} (h : c ∈ trail text) : isBlank c = true :=
  List.mem_rtakeWhile_imp h

theorem lead_append_trim_append_trail (seen : ¬ IsBlankText text) :
    lead text ++ (trim text ++ trail text) = text := by
  have whole : trimEnd text ++ trail text = text := List.rdropWhile_append_rtakeWhile
  have front : lead (trimEnd text) ++ trim text = trimEnd text := List.takeWhile_append_dropWhile
  obtain ⟨c, rest, first⟩ := List.exists_cons_of_ne_nil (mt trim_eq_nil_iff.mp seen)
  have visible : isBlank c = false := by
    have stops := List.head?_dropWhile_not isBlank (trimEnd text)
    have head : ((trimEnd text).dropWhile isBlank).head? = some c := congrArg List.head? first
    rwa [head] at stops
  have same : lead text = lead (trimEnd text) := by
    conv_lhs => rw [← whole, ← front, first, List.append_assoc]
    exact (span_append (fun d mem => isBlank_of_mem_lead mem) (by simp [visible])).1
  rw [same, ← List.append_assoc, front, whole]

end CanonicalLR.Text
