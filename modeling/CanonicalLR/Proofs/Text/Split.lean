import CanonicalLR.Text.Split

/-!
Cutting and joining texts. A cut stands at the first occurrence of the mark, and there is none
exactly if the mark does not occur. Pieces that are joined by a mark come out again when the text is
split: where the mark is one character, if no piece holds it; where it is a word between two such
characters, if the word is not among those of a piece. So lines that hold no line feed come out again
when they are joined by line feeds. Where an empty text has no line, this is so also of no lines at all,
but not of one that is empty.
-/

set_option autoImplicit false
set_option relaxedAutoImplicit false

namespace CanonicalLR.Text

/-- A text with a property before one that begins without it is the longest such beginning. -/
theorem span_append {p : Char → Bool} {text rest : List Char} (inside : ∀ c ∈ text, p c = true)
    (closes : ∀ c ∈ rest.head?, p c = false) :
    (text ++ rest).takeWhile p = text ∧ (text ++ rest).dropWhile p = rest := by
  rw [List.takeWhile_append_of_pos inside, List.dropWhile_append_of_pos inside]
  cases rest with
  | nil => simp
  | cons c rest => simp [closes c rfl]

section Cut

variable {mark text before after : List Char}

theorem cut_eq_none_iff (nonempty : mark ≠ []) : cut mark text = none ↔ ¬ mark <:+: text := by
  induction text with
  | nil => simp [cut, nonempty]
  | cons c text ih =>
    unfold cut
    rw [List.infix_cons_iff, not_or, ← List.isPrefixOf_iff_prefix]
    split
    · next here => simp [here]
    · next elsewhere => simp [elsewhere, ih]

/-- What an occurrence before the cut would be part of. -/
private theorem beginning_prefix :
    before ++ mark.dropLast <+: before ++ mark ++ after := by
  rw [List.append_assoc]
  refine (List.prefix_append_right_inj before).mpr ?_
  exact (List.dropLast_prefix mark).trans (List.prefix_append mark after)

/-- The parts of a cut give the text back with the mark between them, and the mark does not begin
before it. -/
private theorem spec_of_cut (nonempty : mark ≠ []) (h : cut mark text = some (before, after)) :
    text = before ++ mark ++ after ∧ ¬ mark <:+: before ++ mark.dropLast := by
  induction text generalizing before with
  | nil => cases h
  | cons c text ih =>
    unfold cut at h
    split at h
    · next here =>
      cases h
      obtain ⟨rest, whole⟩ := List.isPrefixOf_iff_prefix.mp here
      refine ⟨by rw [← whole]; simp, fun occurs => ?_⟩
      have shorter := occurs.length_le
      have positive := List.length_pos_iff.mpr nonempty
      simp only [List.nil_append, List.length_dropLast] at shorter
      omega
    · next elsewhere =>
      obtain ⟨⟨b, a⟩, found, same⟩ := Option.map_eq_some_iff.mp h
      cases same
      obtain ⟨whole, absent⟩ := ih found
      refine ⟨by rw [whole]; rfl, fun occurs => ?_⟩
      rcases List.infix_cons_iff.mp occurs with here | later
      · refine elsewhere (List.isPrefixOf_iff_prefix.mpr (here.trans ?_))
        rw [whole]
        exact (List.prefix_cons_inj c).mpr beginning_prefix
      · exact absent later

/-- A text in which the mark does not begin earlier is cut there. -/
private theorem cut_append (nonempty : mark ≠ [])
    (first : ¬ mark <:+: before ++ mark.dropLast) :
    cut mark (before ++ mark ++ after) = some (before, after) := by
  induction before with
  | nil =>
    obtain ⟨m, ms, rfl⟩ := List.exists_cons_of_ne_nil nonempty
    have here : (m :: ms).isPrefixOf (m :: (ms ++ after)) = true :=
      List.isPrefixOf_iff_prefix.mpr (List.prefix_append (m :: ms) after)
    change cut (m :: ms) (m :: (ms ++ after)) = _
    unfold cut
    rw [if_pos here]
    simp
  | cons c before ih =>
    have elsewhere : ¬ mark.isPrefixOf (c :: (before ++ mark ++ after)) = true := by
      intro here
      have long : mark.length ≤ (c :: (before ++ mark.dropLast)).length := by
        simp only [List.length_cons, List.length_append, List.length_dropLast]
        omega
      exact first (List.prefix_of_prefix_length_le (List.isPrefixOf_iff_prefix.mp here)
        ((List.prefix_cons_inj c).mpr beginning_prefix) long).isInfix
    change cut mark (c :: (before ++ mark ++ after)) = _
    unfold cut
    rw [if_neg elsewhere, ih fun occurs => first (List.infix_cons occurs)]
    rfl

/-- A text is cut where the mark begins first. -/
theorem cut_eq_some_iff (nonempty : mark ≠ []) :
    cut mark text = some (before, after) ↔
      text = before ++ mark ++ after ∧ ¬ mark <:+: before ++ mark.dropLast := by
  refine ⟨spec_of_cut nonempty, ?_⟩
  rintro ⟨rfl, first⟩
  exact cut_append nonempty first

/-- A mark does not reach into a character that is not its last one. -/
theorem isInfix_of_isInfix_concat {c : Char} (h : mark <:+: text ++ [c])
    (last : mark.getLast? ≠ some c) : mark <:+: text := by
  rcases List.infix_concat_iff.mp h with ending | inside
  · rcases List.suffix_concat_iff.mp ending with rfl | ⟨front, rfl, -⟩
    · exact List.nil_infix
    · exact absurd List.getLast?_concat last
  · exact inside

/-- A mark of two different characters does not reach over the place where it is cut. -/
theorem cut_pair_eq_some_iff {m n : Char} (different : m ≠ n) :
    cut [m, n] text = some (before, after) ↔
      text = before ++ [m, n] ++ after ∧ ¬ [m, n] <:+: before := by
  rw [cut_eq_some_iff (List.cons_ne_nil _ _)]
  refine and_congr_right fun _ => not_congr ⟨fun occurs => ?_, fun occurs => ?_⟩
  · exact isInfix_of_isInfix_concat occurs (by simp [different.symm])
  · exact occurs.trans (List.prefix_append before _).isInfix

end Cut

section Joined

/-- Splitting at one character is the library's. -/
theorem splitAt_eq_splitOn (mark : Char) (text : List Char) :
    splitAt mark text = text.splitOn mark := by
  induction text with
  | nil => rfl
  | cons c text ih =>
    rw [List.splitOn_cons_eq_if_modifyHead, splitAt, ih]
    by_cases here : c = mark
    · simp [here]
    · obtain ⟨piece, pieces, found⟩ := List.exists_cons_of_ne_nil (List.splitOn_ne_nil mark text)
      simp [here, found]

/-- Pieces without the mark come out again. -/
theorem splitAt_intercalate {mark : Char} {pieces : List (List Char)} (nonempty : pieces ≠ [])
    (free : ∀ piece ∈ pieces, mark ∉ piece) :
    splitAt mark (List.intercalate [mark] pieces) = pieces := by
  rw [splitAt_eq_splitOn]
  exact List.splitOn_intercalate mark free nonempty

/-- No piece holds the mark. -/
theorem not_mem_of_mem_splitAt {mark : Char} {text piece : List Char}
    (h : piece ∈ splitAt mark text) : mark ∉ piece := by
  induction text generalizing piece with
  | nil =>
    obtain rfl := List.mem_singleton.mp h
    exact List.not_mem_nil
  | cons c text ih =>
    unfold splitAt at h
    split at h
    · rcases List.mem_cons.mp h with rfl | h
      · exact List.not_mem_nil
      · exact ih h
    · next different =>
      cases found : splitAt mark text with
      | nil => exact absurd found (splitAt_ne_nil mark text)
      | cons first pieces =>
        rw [found] at h ih
        rcases List.mem_cons.mp h with rfl | h
        · intro mem
          rcases List.mem_cons.mp mem with same | mem
          · exact different same.symm
          · exact ih (List.mem_cons_self ..) mem
        · exact ih (List.mem_cons_of_mem _ h)

/-- The last piece stands behind the others and the mark. -/
theorem intercalate_concat {mark last : List Char} {pieces : List (List Char)}
    (nonempty : pieces ≠ []) :
    mark.intercalate (pieces ++ [last]) = mark.intercalate pieces ++ mark ++ last := by
  induction pieces with
  | nil => exact absurd rfl nonempty
  | cons piece pieces ih =>
    cases pieces with
    | nil => simp
    | cons next pieces =>
      rw [List.cons_append, List.cons_append, List.intercalate_cons_cons, ← List.cons_append,
        ih (List.cons_ne_nil _ _), List.intercalate_cons_cons]
      simp only [List.append_assoc]

/-- Joined pieces hold what the mark or a piece holds. -/
theorem mem_or_mem_of_mem_intercalate {mark : List Char} {pieces : List (List Char)} {c : Char}
    (h : c ∈ mark.intercalate pieces) : c ∈ mark ∨ ∃ piece ∈ pieces, c ∈ piece := by
  induction pieces with
  | nil => cases h
  | cons piece pieces ih =>
    by_cases last : pieces = []
    · subst last
      exact .inr ⟨piece, List.mem_singleton_self _, by simpa using h⟩
    · rw [List.intercalate_cons_of_ne_nil last, List.mem_append, List.mem_append] at h
      rcases h with (h | h) | h
      · exact .inr ⟨piece, List.mem_cons_self .., h⟩
      · exact .inl h
      · refine (ih h).imp_right ?_
        rintro ⟨other, mem, here⟩
        exact ⟨other, List.mem_cons_of_mem _ mem, here⟩

/-- Joined pieces end with the last one of them. -/
theorem exists_last_of_intercalate (mark : List Char) {pieces : List (List Char)}
    (nonempty : pieces ≠ []) :
    ∃ front, ∃ last ∈ pieces, mark.intercalate pieces = front ++ last := by
  obtain ⟨others, last, rfl⟩ := List.eq_nil_or_concat pieces |>.resolve_left nonempty
  rw [List.concat_eq_append]
  have mem : last ∈ others ++ [last] := List.mem_append_right _ (List.mem_singleton_self last)
  by_cases only : others = []
  · subst only
    exact ⟨[], last, mem, List.intercalate_singleton⟩
  · exact ⟨_, last, mem, intercalate_concat only⟩

/-- Words joined by a character hold a word between two such characters only if it is one of them,
and neither the first nor the last. -/
private theorem exists_split_of_isInfix {mark : Char} {words : List (List Char)} {word : List Char}
    (free : ∀ w ∈ words, mark ∉ w) (plain : mark ∉ word)
    (h : mark :: (word ++ [mark]) <:+: List.intercalate [mark] words) :
    ∃ front back, words = front ++ word :: back ∧ front ≠ [] ∧ back ≠ [] := by
  obtain ⟨left, right, whole⟩ := h
  have nonempty : words ≠ [] := by
    rintro rfl
    simp at whole
  refine ⟨left.splitOn mark, right.splitOn mark, ?_, List.splitOn_ne_nil _ _,
    List.splitOn_ne_nil _ _⟩
  calc words = (List.intercalate [mark] words).splitOn mark :=
        (List.splitOn_intercalate mark free nonempty).symm
    _ = (left ++ mark :: (word ++ mark :: right)).splitOn mark := by rw [← whole]; simp
    _ = left.splitOn mark ++ word :: right.splitOn mark := by
      rw [List.splitOn_append_cons_self, List.splitOn_append_cons_self_of_not_mem plain]

private theorem splitOn_of_cut_eq_none {m : Char} {ms text : List Char}
    (h : cut (m :: ms) text = none) : splitOn m ms text = [text] := by
  unfold splitOn
  split
  · rfl
  · next found => cases found.symm.trans h

private theorem splitOn_of_cut_eq_some {m : Char} {ms text before after : List Char}
    (h : cut (m :: ms) text = some (before, after)) :
    splitOn m ms text = before :: splitOn m ms after := by
  rw [splitOn]
  split
  · next found => cases found.symm.trans h
  · next found =>
    cases found.symm.trans h
    rfl

/-- Pieces that are made of words, and do not have the word of the mark, come out again. -/
theorem splitOn_intercalate {m : Char} {word : List Char} (plain : m ∉ word)
    {pieces : List (List (List Char))} (nonempty : pieces ≠ [])
    (free : ∀ words ∈ pieces, words ≠ [] ∧ word ∉ words ∧ ∀ w ∈ words, m ∉ w) :
    splitOn m (word ++ [m])
        (List.intercalate (m :: (word ++ [m])) (pieces.map (List.intercalate [m]))) =
      pieces.map (List.intercalate [m]) := by
  induction pieces with
  | nil => exact absurd rfl nonempty
  | cons words pieces ih =>
    obtain ⟨⟨some_word, absent, apart⟩, later⟩ := List.forall_mem_cons.mp free
    cases pieces with
    | nil =>
      simp only [List.map_cons, List.map_nil, List.intercalate_singleton]
      refine splitOn_of_cut_eq_none ((cut_eq_none_iff (List.cons_ne_nil _ _)).mpr fun occurs => ?_)
      obtain ⟨front, back, rfl, -, -⟩ := exists_split_of_isInfix apart plain occurs
      exact absent (List.mem_append_right _ (List.mem_cons_self ..))
    | cons next pieces =>
      rw [List.map_cons, List.map_cons, List.intercalate_cons_cons, ← List.map_cons,
        splitOn_of_cut_eq_some, ih (List.cons_ne_nil _ _) later]
      refine (cut_eq_some_iff (List.cons_ne_nil _ _)).mpr ⟨rfl, fun occurs => ?_⟩
      -- what an earlier mark would be part of is the piece with the word of the mark behind it
      have joined : List.intercalate [m] words ++ (m :: (word ++ [m])).dropLast =
          List.intercalate [m] (words ++ [word]) := by
        rw [intercalate_concat some_word, List.append_assoc, ← List.cons_append,
          List.dropLast_concat]
        rfl
      rw [joined] at occurs
      obtain ⟨front, back, whole, -, more⟩ := exists_split_of_isInfix
        (by simpa [or_imp, forall_and] using ⟨apart, plain⟩) plain occurs
      obtain ⟨back, last, rfl⟩ := List.eq_nil_or_concat back |>.resolve_left more
      rw [List.concat_eq_append, ← List.cons_append, ← List.append_assoc] at whole
      refine absent ?_
      rw [(List.append_inj' whole rfl).1]
      exact List.mem_append_right _ (List.mem_cons_self ..)

end Joined

/-- The lines of a text; an empty text has none. -/
def linesOf (text : String) : List String :=
  if text = "" then [] else (lines text.toList).map String.ofList

variable {texts : List String}

/-- Joined texts are the first one, and the mark before each of the others. -/
theorem intercalate_eq_join (mark text : String) (texts : List String) :
    mark.intercalate (text :: texts) = text ++ String.join (texts.map (mark ++ ·)) := by
  induction texts generalizing text with
  | nil => simp
  | cons next texts ih =>
    rw [String.intercalate_cons_cons, ih, List.map_cons, String.join_cons, String.append_assoc,
      String.append_assoc]

/-- Joined texts hold no line feed if neither the mark nor a text does. -/
theorem newline_not_mem_intercalate {mark : String} (clear : '\n' ∉ mark.toList)
    (unbroken : ∀ text ∈ texts, '\n' ∉ text.toList) :
    '\n' ∉ (mark.intercalate texts).toList := by
  intro mem
  rw [String.toList_intercalate] at mem
  rcases mem_or_mem_of_mem_intercalate mem with mem | ⟨piece, here, mem⟩
  · exact clear mem
  · obtain ⟨text, inside, rfl⟩ := List.mem_map.mp here
    exact unbroken text inside mem

section Unbroken

variable (unbroken : ∀ text ∈ texts, '\n' ∉ text.toList)
include unbroken

/-- Lines come out again when they are joined. -/
theorem map_lines_intercalate (nonempty : texts ≠ []) :
    (lines ("\n".intercalate texts).toList).map String.ofList = texts := by
  have pieces : texts.map String.toList ≠ [] := by simpa using nonempty
  have split : lines ("\n".intercalate texts).toList = texts.map String.toList := by
    rw [String.toList_intercalate]
    refine splitAt_intercalate pieces fun piece mem => ?_
    obtain ⟨text, here, rfl⟩ := List.mem_map.mp mem
    exact unbroken text here
  rw [split, List.map_map]
  exact (List.map_congr_left fun text _ => String.ofList_toList).trans (List.map_id texts)

theorem linesOf_intercalate (visible : texts ≠ [""]) :
    linesOf ("\n".intercalate texts) = texts := by
  by_cases none : texts = []
  · subst none
    rfl
  · have back := map_lines_intercalate unbroken none
    have nonempty : "\n".intercalate texts ≠ "" := by
      intro empty
      rw [empty] at back
      exact visible back.symm
    rw [linesOf, if_neg nonempty, back]

end Unbroken

end CanonicalLR.Text
