import CanonicalLR.Proofs.Text.Split
import CanonicalLR.Report.Grid

/-!
Tables as they are drawn. A line over columns is built from its first column and the line over the
others, so that rules and rows have their bars at the same places; the widths are the greatest lengths
in the columns, whatever the lengths of the rows are.
-/

set_option autoImplicit false
set_option relaxedAutoImplicit false

namespace CanonicalLR.Report

section Barred

variable {width : Nat} {widths : List Nat} {bar : Nat → Char}
  {holds : Nat → Nat → List Char → Prop} {field line : List Char}

@[simp] theorem barPlace_zero (widths : List Nat) : barPlace widths 0 = 0 := by
  cases widths <;> rfl

theorem barPlace_succ (width : Nat) (widths : List Nat) (j : Nat) :
    barPlace (width :: widths) (j + 1) = width + 3 + barPlace widths j := rfl

theorem isBarred_nil : IsBarred [] bar holds [bar 0] := by
  refine ⟨rfl, fun j inside => ?_, fun j width none => ?_⟩
  · obtain rfl : j = 0 := by simpa using inside
    rfl
  · cases none

/-- A line begins with the bar and the field of the first column. -/
theorem isBarred_cons (wide : field.length = width + 2) (first : holds 0 width field)
    (rest : IsBarred widths (fun j => bar (j + 1)) (fun j => holds (j + 1)) line) :
    IsBarred (width :: widths) bar holds (bar 0 :: (field ++ line)) := by
  have behind (k : Nat) : (bar 0 :: (field ++ line)).drop (width + 3 + k) = line.drop k := by
    rw [show width + 3 + k = field.length + k + 1 by omega, List.drop_succ_cons,
      List.drop_length_add_append]
  refine ⟨?_, fun j inside => ?_, fun j w here => ?_⟩
  · rw [List.length_cons, List.length_append, rest.length, wide, List.length_cons, barPlace_succ]
    omega
  · cases j with
    | zero => rfl
    | succ j =>
      rw [barPlace_succ, ← List.head?_drop, behind, List.head?_drop]
      exact rest.bars j (Nat.le_of_succ_le_succ inside)
  · cases j with
    | zero =>
      cases here
      have cut : (bar 0 :: (field ++ line)).extract 1 (width + 3) = field := by
        rw [List.extract, List.drop_succ_cons, List.drop_zero]
        exact List.take_left' wide
      rw [barPlace_zero, barPlace_succ, barPlace_zero, Nat.add_zero, cut]
      exact first
    | succ j =>
      have cut : (bar 0 :: (field ++ line)).extract (width + 3 + barPlace widths j + 1)
          (width + 3 + barPlace widths (j + 1)) =
            line.extract (barPlace widths j + 1) (barPlace widths (j + 1)) := by
        rw [List.extract, List.extract, Nat.add_assoc _ (barPlace widths j) 1, behind]
        congr 1
        omega
      rw [barPlace_succ, barPlace_succ, cut]
      exact rest.fields j w here

end Barred

section Lines

variable {widths : List Nat}

private theorem toList_repeated (c : Char) (count : Nat) :
    (repeated c count).toList = List.replicate count c := String.toList_ofList

theorem isPadded_pad {align : Align} {width : Nat} {text : String} (fits : text.length ≤ width) :
    IsPadded align width text.toList (align.pad width text).toList := by
  let missing := width - text.length
  have spelled (before : Nat) :
      (repeated ' ' before ++ text ++ repeated ' ' (missing - before)).toList =
        List.replicate before ' ' ++ text.toList ++ List.replicate (missing - before) ' ' := by
    simp only [String.toList_append, toList_repeated]
  have wide (before : Nat) (few : before ≤ missing) :
      before + text.toList.length + (missing - before) = width := by
    rw [String.length_toList]
    omega
  cases align with
  | left => exact ⟨0, _, spelled 0, wide 0 (Nat.zero_le _), rfl⟩
  | center =>
    refine ⟨missing / 2, _, spelled _, wide _ (Nat.div_le_self ..), ?_⟩
    change missing - missing / 2 = missing / 2 ∨ missing - missing / 2 = missing / 2 + 1
    omega
  | right => exact ⟨missing, _, spelled _, wide _ (Nat.le_refl _), Nat.sub_self _⟩

theorem IsPadded.length {align : Align} {width : Nat} {text padded : List Char}
    (h : IsPadded align width text padded) : padded.length = width := by
  obtain ⟨before, after, rfl, whole, -⟩ := h
  simpa [Nat.add_assoc] using whole

theorem isRule_rule {left junction right : String} {l j r : Char} (opens : left.toList = [l])
    (joins : junction.toList = [j]) (closes : right.toList = [r]) (columns : widths ≠ []) :
    IsRule widths l j r (Box.rule widths left junction right).toList := by
  induction widths generalizing left l with
  | nil => exact absurd rfl columns
  | cons width widths ih =>
    have wide : (List.replicate (width + 2) '─').length = width + 2 := List.length_replicate
    have dashes : ∀ c ∈ List.replicate (width + 2) '─', c = '─' := fun c => List.eq_of_mem_replicate
    cases widths with
    | nil =>
      have whole : (Box.rule [width] left junction right).toList =
          l :: (List.replicate (width + 2) '─' ++ [r]) := by
        simp [Box.rule, opens, closes, toList_repeated]
      rw [whole]
      exact isBarred_cons wide dashes isBarred_nil
    | cons next widths =>
      have whole : (Box.rule (width :: next :: widths) left junction right).toList =
          l :: (List.replicate (width + 2) '─' ++
            (Box.rule (next :: widths) junction junction right).toList) := by
        simp [Box.rule, opens, toList_repeated, String.intercalate_cons_cons]
      have bars : (fun k => if k = 0 then j else if k = (next :: widths).length then r else j) =
          fun k => if k + 1 = 0 then l
            else if k + 1 = (width :: next :: widths).length then r else j := by
        funext k
        cases k <;> simp
      have rest := ih joins (List.cons_ne_nil _ _)
      rw [IsRule, bars] at rest
      rw [whole]
      exact isBarred_cons wide dashes rest

/-- The line of a row from one of its columns on. -/
private theorem isBarred_fields (align : Nat → Align) (j : Nat) {texts : List String}
    (fits : ∀ k width, widths[k]? = some width → (texts.getD k "").length ≤ width) :
    IsBarred widths (fun _ => '│')
      (fun k width field => ∃ padded, field = ' ' :: (padded ++ [' ']) ∧
        IsPadded (align (j + k)) width (texts.getD k "").toList padded)
      ('│' :: (String.join (Box.fields align j widths texts)).toList) := by
  induction widths generalizing j texts with
  | nil => exact isBarred_nil
  | cons width widths ih =>
    let padded := ((align j).pad width (texts.headD "")).toList
    have whole : (String.join (Box.fields align j (width :: widths) texts)).toList =
        ' ' :: (padded ++ [' ']) ++
          '│' :: (String.join (Box.fields align (j + 1) widths texts.tail)).toList := by
      simp [Box.fields, padded]
    have head : texts.headD "" = texts.getD 0 "" := by cases texts <;> rfl
    have tail (k : Nat) : texts.tail.getD k "" = texts.getD (k + 1) "" := by cases texts <;> rfl
    have right : IsPadded (align j) width (texts.getD 0 "").toList padded := by
      rw [← head]
      exact isPadded_pad (head ▸ fits 0 width rfl)
    have place (k : Nat) : j + 1 + k = j + (k + 1) := by omega
    have rest := @ih (j + 1) texts.tail fun k w here => by
      rw [tail]
      exact fits (k + 1) w here
    simp only [tail, place] at rest
    rw [whole]
    exact isBarred_cons (by simp [right.length]) ⟨padded, rfl, right⟩ rest

theorem isRow_line {align : Nat → Align} {texts : List String}
    (fits : ∀ j width, widths[j]? = some width → (texts.getD j "").length ≤ width) :
    IsRow widths align texts (Box.line widths align texts).toList := by
  have row := isBarred_fields align 0 fits
  simp only [Nat.zero_add] at row
  rw [Box.line, String.toList_append]
  exact row

end Lines

section Widths

variable {rows : List (List String)}

private theorem length_widen (widths : List Nat) (texts : List String) :
    (Box.widen widths texts).length = max widths.length texts.length := by
  fun_induction Box.widen widths texts with
  | case1 widths => simp
  | case2 text texts ih =>
    rw [List.length_cons, ih]
    simp
  | case3 width widths text texts ih =>
    rw [List.length_cons, ih]
    simp

private theorem getD_widen (widths : List Nat) (texts : List String) (j : Nat) :
    (Box.widen widths texts).getD j 0 = max (widths.getD j 0) (texts.getD j "").length := by
  fun_induction Box.widen widths texts generalizing j with
  | case1 widths => simp
  | case2 text texts ih =>
    cases j with
    | zero => simp
    | succ j => simpa using ih j
  | case3 width widths text texts ih =>
    cases j with
    | zero => simp
    | succ j => simpa using ih j

theorem length_widths (rows : List (List String)) :
    (Box.widths rows).length = (rows.map List.length).foldl max 0 := by
  rw [List.foldl_map]
  exact (List.foldl_hom List.length fun widths texts => (length_widen widths texts).symm).symm

theorem getD_widths (rows : List (List String)) (j : Nat) :
    (Box.widths rows).getD j 0 = (rows.map fun row => (row.getD j "").length).foldl max 0 := by
  rw [List.foldl_map]
  exact (@List.foldl_hom _ _ _ (·.getD j 0) Box.widen (fun m row => max m (row.getD j "").length)
    rows [] fun widths texts => (getD_widen widths texts j).symm).symm

private theorem isGreatest_foldl {l : List Nat} (nonempty : l ≠ []) :
    IsGreatest {n | n ∈ l} (l.foldl max 0) := by
  rw [List.foldl_max_eq_max nonempty, Nat.zero_max]
  exact ⟨List.max_mem nonempty, fun n mem => List.le_max_of_mem mem⟩

theorem isGreatest_length_widths (nonempty : rows ≠ []) :
    IsGreatest {n | ∃ row ∈ rows, row.length = n} (Box.widths rows).length := by
  have greatest := isGreatest_foldl (l := rows.map List.length) (by simpa using nonempty)
  rw [← length_widths] at greatest
  simpa using greatest

theorem isGreatest_getElem_widths (nonempty : rows ≠ []) {j width : Nat}
    (here : (Box.widths rows)[j]? = some width) :
    IsGreatest {n | ∃ row ∈ rows, (row.getD j "").length = n} width := by
  have greatest := isGreatest_foldl (l := rows.map fun row => (row.getD j "").length)
    (by simpa using nonempty)
  rw [← getD_widths, List.getD_eq_getElem?_getD, here, Option.getD_some] at greatest
  simpa using greatest

end Widths

section Unbroken

variable {widths : List Nat} {texts : List String} {align : Nat → Align}

private theorem newline_not_mem_repeated {c : Char} (other : '\n' ≠ c) (count : Nat) :
    '\n' ∉ (repeated c count).toList := by
  rw [toList_repeated]
  exact fun mem => other (List.eq_of_mem_replicate mem)

theorem newline_not_mem_rule {left junction right : String} (opens : '\n' ∉ left.toList)
    (joins : '\n' ∉ junction.toList) (closes : '\n' ∉ right.toList) :
    '\n' ∉ (Box.rule widths left junction right).toList := by
  have dashes : '\n' ∉ (junction.intercalate
      (widths.map fun width => repeated '─' (width + 2))).toList := by
    refine Text.newline_not_mem_intercalate joins fun text mem => ?_
    obtain ⟨width, -, rfl⟩ := List.mem_map.mp mem
    exact newline_not_mem_repeated (by decide) _
  simp only [Box.rule, String.toList_append, List.mem_append, not_or]
  exact ⟨⟨opens, dashes⟩, closes⟩

private theorem newline_not_mem_fields {j : Nat} (unbroken : ∀ text ∈ texts, '\n' ∉ text.toList) :
    ∀ field ∈ Box.fields align j widths texts, '\n' ∉ field.toList := by
  induction widths generalizing j texts with
  | nil => exact nofun
  | cons width widths ih =>
    intro field mem
    rcases List.mem_cons.mp mem with rfl | mem
    · have text : '\n' ∉ (texts.headD "").toList := by
        cases texts with
        | nil => exact List.not_mem_nil
        | cons text texts => exact unbroken text (List.mem_cons_self ..)
      have spaces (count : Nat) : '\n' ∉ (repeated ' ' count).toList :=
        newline_not_mem_repeated (by decide) count
      simp only [Align.pad, String.toList_append, List.mem_append, not_or]
      exact ⟨⟨by decide, ⟨spaces _, text⟩, spaces _⟩, by decide⟩
    · exact ih (fun text inside => unbroken text (List.mem_of_mem_tail inside)) field mem

theorem newline_not_mem_line (unbroken : ∀ text ∈ texts, '\n' ∉ text.toList) :
    '\n' ∉ (Box.line widths align texts).toList := by
  have fields : ∀ field ∈ Box.fields align 0 widths texts, '\n' ∉ field.toList :=
    newline_not_mem_fields unbroken
  simpa [Box.line] using fields

end Unbroken

section Drawn

variable {widths : List Nat} {align : Nat → Nat → Align} {header : List String}
  {rows : List (List String)}

theorem length_body (widths : List Nat) (align : Nat → Nat → Align) (i : Nat)
    (rows : List (List String)) : (Box.body widths align i rows).length = rows.length := by
  fun_induction Box.body widths align i rows <;> simp_all

theorem getElem?_body (i k : Nat) : (Box.body widths align i rows)[k]? =
    rows[k]?.map fun row => Box.line widths (align (i + k)) row := by
  induction rows generalizing i k with
  | nil => rfl
  | cons row rows ih =>
    cases k with
    | zero => rfl
    | succ k =>
      rw [Box.body, List.getElem?_cons_succ, List.getElem?_cons_succ, ih, Nat.add_right_comm]
      rfl

/-- The lines of a table, from its upper edge to the rule behind the header. -/
private def upper (widths : List Nat) (align : Nat → Nat → Align) (header : List String) :
    List String :=
  [Box.rule widths "┌" "┬" "┐", Box.line widths (align 0) header, Box.rule widths "├" "┼" "┤"]

/-- The lines of the other rows and the lower edge. -/
private def lower (widths : List Nat) (align : Nat → Nat → Align) (rows : List (List String)) :
    List String :=
  Box.body widths align 1 rows ++ [Box.rule widths "└" "┴" "┘"]

private theorem render_eq (style : Style) (columns : Box.widths (header :: rows) ≠ []) :
    Box.render style align (header :: rows) =
      style.paint .yellow ("\n".intercalate (upper (Box.widths (header :: rows)) align header)) ++
        "\n" ++ "\n".intercalate (lower (Box.widths (header :: rows)) align rows) := by
  have wide : (Box.widths (header :: rows)).isEmpty = false := by simpa using columns
  simp only [Box.render, wide, Bool.false_eq_true, if_false, List.cons_append]
  rw [String.intercalate_cons_of_ne_nil (by simp)]
  rfl

/-- The lines of a table are three rules and the lines of the rows. -/
private theorem forall_mem_parts {P : String → Prop} (top : P (Box.rule widths "┌" "┬" "┐"))
    (middle : P (Box.rule widths "├" "┼" "┤")) (bottom : P (Box.rule widths "└" "┴" "┘"))
    (row : ∀ i, ∀ texts ∈ header :: rows, P (Box.line widths (align i) texts)) :
    ∀ line ∈ upper widths align header ++ lower widths align rows, P line := by
  intro line mem
  rcases List.mem_append.mp mem with mem | mem
  · simp only [upper, List.mem_cons, List.not_mem_nil, or_false] at mem
    rcases mem with rfl | rfl | rfl
    · exact top
    · exact row 0 header (List.mem_cons_self ..)
    · exact middle
  · rcases List.mem_append.mp mem with mem | mem
    · obtain ⟨k, here⟩ := List.mem_iff_getElem?.mp mem
      rw [getElem?_body] at here
      obtain ⟨texts, found, rfl⟩ := Option.map_eq_some_iff.mp here
      exact row _ texts (List.mem_cons_of_mem _ (List.mem_of_getElem? found))
    · obtain rfl := List.mem_singleton.mp mem
      exact bottom

private theorem newline_not_mem_parts
    (unbroken : ∀ row ∈ header :: rows, ∀ text ∈ row, '\n' ∉ text.toList) :
    ∀ line ∈ upper widths align header ++ lower widths align rows, '\n' ∉ line.toList := by
  refine forall_mem_parts ?_ ?_ ?_ fun i texts mem => newline_not_mem_line (unbroken texts mem)
  · exact newline_not_mem_rule (by decide) (by decide) (by decide)
  · exact newline_not_mem_rule (by decide) (by decide) (by decide)
  · exact newline_not_mem_rule (by decide) (by decide) (by decide)

/-- The line behind the header's rule with number `k` is that of row `k` of the others. -/
private theorem getElem?_lower {k : Nat} {row : List String} (here : rows[k]? = some row) :
    (lower widths align rows)[k]? = some (Box.line widths (align (k + 1)) row) := by
  have inside : k < (Box.body widths align 1 rows).length := by
    rw [length_body]
    exact (List.getElem?_eq_some_iff.mp here).1
  rw [lower, List.getElem?_append_left inside, getElem?_body, here, Nat.add_comm 1 k]
  rfl

private theorem getElem?_lower_length : (lower widths align rows)[rows.length]? =
    some (Box.rule widths "└" "┴" "┘") := by
  rw [lower, List.getElem?_append_right (by simp [length_body]), length_body, Nat.sub_self]
  rfl

/-- The two parts are the lines of a table. -/
private theorem isTable_parts (columns : Box.widths (header :: rows) ≠ []) :
    IsTable align (header :: rows) (Box.widths (header :: rows))
      (upper (Box.widths (header :: rows)) align header ++
        lower (Box.widths (header :: rows)) align rows) := by
  let widths := Box.widths (header :: rows)
  have widest : ∀ j width, widths[j]? = some width →
      IsGreatest {n | ∃ row ∈ header :: rows, (row.getD j "").length = n} width :=
    fun j width => isGreatest_getElem_widths (List.cons_ne_nil _ _)
  have row : ∀ i, ∀ texts ∈ header :: rows,
      IsRow widths (align i) texts (Box.line widths (align i) texts).toList :=
    fun i texts mem => isRow_line fun j width here => (widest j width here).2 ⟨texts, mem, rfl⟩
  have top : IsRule widths '┌' '┬' '┐' (Box.rule widths "┌" "┬" "┐").toList :=
    isRule_rule rfl rfl rfl columns
  have middle : IsRule widths '├' '┼' '┤' (Box.rule widths "├" "┼" "┤").toList :=
    isRule_rule rfl rfl rfl columns
  have bottom : IsRule widths '└' '┴' '┘' (Box.rule widths "└" "┴" "┘").toList :=
    isRule_rule rfl rfl rfl columns
  refine ⟨isGreatest_length_widths (List.cons_ne_nil _ _), widest, ?_, ?_, ?_, ?_, ?_, ?_⟩
  · simp [upper, lower, length_body]
  · simp only [← String.length_toList]
    exact forall_mem_parts top.length middle.length bottom.length
      fun i texts mem => (row i texts mem).length
  · rintro line ⟨⟩
    exact top
  · rintro line ⟨⟩
    exact middle
  · intro line here
    change (lower widths align rows)[rows.length]? = some line at here
    rw [getElem?_lower_length] at here
    cases here
    exact bottom
  · intro i texts found line here
    have drawn := row i texts (List.mem_of_getElem? found)
    cases i with
    | zero =>
      cases found
      cases here
      exact drawn
    | succ i =>
      rw [List.getElem?_cons_succ] at found
      change (lower widths align rows)[i]? = some line at here
      rw [getElem?_lower found] at here
      cases here
      exact drawn

end Drawn

/-- A text that differs from a plain one in nothing but the color of its first lines. -/
def IsColoring (color : Color) (count : Nat) (plain colored : String) : Prop :=
  ∃ head tail, plain = head ++ "\n" ++ tail ∧
    Text.linesOf head = (Text.linesOf plain).take count ∧
    colored = color.code ++ head ++ Color.reset ++ "\n" ++ tail

/-- Rows with a cell at all, and no line feed in a cell, are drawn in the lines of a table; in color,
the first three of these are yellow. -/
theorem isTable_render (align : Nat → Nat → Align) (rows : List (List String))
    (cell : ∃ row ∈ rows, row ≠ [])
    (unbroken : ∀ row ∈ rows, ∀ text ∈ row, '\n' ∉ text.toList) :
    IsTable align rows (Box.widths rows) (Text.linesOf (Box.render ⟨false⟩ align rows)) ∧
      IsColoring .yellow 3 (Box.render ⟨false⟩ align rows) (Box.render ⟨true⟩ align rows) := by
  obtain ⟨longest, mem, nonempty⟩ := cell
  have columns : Box.widths rows ≠ [] := by
    intro none
    have bound := (isGreatest_length_widths (List.ne_nil_of_mem mem)).2 ⟨longest, mem, rfl⟩
    rw [none, List.length_nil, Nat.le_zero] at bound
    exact nonempty (List.length_eq_zero_iff.mp bound)
  cases rows with
  | nil => cases mem
  | cons header rows =>
    let top := upper (Box.widths (header :: rows)) align header
    let rest := lower (Box.widths (header :: rows)) align rows
    have plain : Box.render ⟨false⟩ align (header :: rows) =
        "\n".intercalate top ++ "\n" ++ "\n".intercalate rest := render_eq _ columns
    have clear : ∀ line ∈ top ++ rest, '\n' ∉ line.toList := newline_not_mem_parts unbroken
    have lines : Text.linesOf (Box.render ⟨false⟩ align (header :: rows)) = top ++ rest := by
      rw [plain, ← String.intercalate_append_of_ne_nil (by simp [top, upper]) (by simp [rest, lower])]
      exact Text.linesOf_intercalate clear (by simp [top, upper])
    have first : Text.linesOf ("\n".intercalate top) = top :=
      Text.linesOf_intercalate (fun line mem => clear line (List.mem_append_left _ mem))
        (by simp [top, upper])
    refine ⟨lines ▸ isTable_parts columns, _, _, plain, ?_, render_eq _ columns⟩
    rw [lines, first]
    rfl

/-- Rows of different lengths, one of them without a cell. -/
def ragged : List (List String) := [["a", "ε│"], [], ["bcd", "", "e"]]

/-- The header in the middle of its cells, other rows to the right. -/
def headed (i _ : Nat) : Align := if i = 0 then .center else .right

theorem isTable_render_ragged : (∃ row ∈ ragged, row ≠ []) ∧
    (∀ row ∈ ragged, ∀ text ∈ row, '\n' ∉ text.toList) ∧ ∃ lines,
      lines = ["┌─────┬────┬───┐", "│  a  │ ε│ │   │", "├─────┼────┼───┤", "│     │    │   │",
        "│ bcd │    │ e │", "└─────┴────┴───┘"] ∧
      Box.render ⟨false⟩ headed ragged = "\n".intercalate lines ∧
      IsTable headed ragged [3, 2, 1] lines ∧
      IsColoring .yellow 3 ("\n".intercalate lines) (Box.render ⟨true⟩ headed ragged) := by
  let lines := ["┌─────┬────┬───┐", "│  a  │ ε│ │   │", "├─────┼────┼───┤", "│     │    │   │",
    "│ bcd │    │ e │", "└─────┴────┴───┘"]
  have cell : ∃ row ∈ ragged, row ≠ [] := ⟨_, List.mem_cons_self .., List.cons_ne_nil _ _⟩
  have unbroken : ∀ row ∈ ragged, ∀ text ∈ row, '\n' ∉ text.toList := by decide +kernel
  have widths : Box.widths ragged = [3, 2, 1] := by decide +kernel
  have drawn : Box.render ⟨false⟩ headed ragged = "\n".intercalate lines := by decide +kernel
  have table := isTable_render headed ragged cell unbroken
  rw [widths, drawn, Text.linesOf_intercalate (by decide +kernel) (by decide +kernel)] at table
  exact ⟨cell, unbroken, lines, rfl, drawn, table⟩

end CanonicalLR.Report
