import CanonicalLR.Report.Box
import Mathlib.Order.Bounds.Defs

/-!
Boxes by the places of their characters: where bars stand in the lines of a table, and what there is
between them.
-/

set_option autoImplicit false
set_option relaxedAutoImplicit false

namespace CanonicalLR.Report

/-- The place of the bar before column `j`. Behind a bar come a space, the width of its column,
another space, and the next bar. -/
def barPlace : List Nat → Nat → Nat
  | _, 0 => 0
  | [], _ + 1 => 0
  | width :: widths, j + 1 => width + 3 + barPlace widths j

/-- A line with a bar before every column and one more at its end. What stands between two bars is as
it has to be in a column of this number and width. -/
structure IsBarred (widths : List Nat) (bar : Nat → Char) (holds : Nat → Nat → List Char → Prop)
    (chars : List Char) : Prop where
  length : chars.length = barPlace widths widths.length + 1
  bars : ∀ j ≤ widths.length, chars[barPlace widths j]? = some (bar j)
  fields : ∀ j width, widths[j]? = some width →
    holds j width (chars.extract (barPlace widths j + 1) (barPlace widths (j + 1)))

/-- A horizontal rule, with different bars at its ends and at the junctions between columns. -/
def IsRule (widths : List Nat) (left junction right : Char) : List Char → Prop :=
  IsBarred widths (fun j => if j = 0 then left else if j = widths.length then right else junction)
    fun _ _ field => ∀ c ∈ field, c = '─'

/-- A text that spaces make as wide as it has to be: they stand behind it, before it, or on both
sides, one more behind it where they cannot be halved. -/
def IsPadded (align : Align) (width : Nat) (text padded : List Char) : Prop :=
  ∃ before after, padded = List.replicate before ' ' ++ text ++ List.replicate after ' ' ∧
    before + text.length + after = width ∧
    match align with
    | .left => before = 0
    | .center => after = before ∨ after = before + 1
    | .right => after = 0

/-- The line of a row, with a text for every column; it is empty where the row has none. -/
def IsRow (widths : List Nat) (align : Nat → Align) (texts : List String) : List Char → Prop :=
  IsBarred widths (fun _ => '│') fun j width field =>
    ∃ padded, field = ' ' :: (padded ++ [' ']) ∧
      IsPadded (align j) width (texts.getD j "").toList padded

/-- The lines of a table. It has as many columns as the longest row, each as wide as the longest text
in it, and three rules: one before the first row, one behind it and one at the end. -/
structure IsTable (align : Nat → Nat → Align) (rows : List (List String)) (widths : List Nat)
    (lines : List String) : Prop where
  columns : IsGreatest {n | ∃ row ∈ rows, row.length = n} widths.length
  widest : ∀ j width, widths[j]? = some width →
    IsGreatest {n | ∃ row ∈ rows, (row.getD j "").length = n} width
  count : lines.length = rows.length + 3
  length : ∀ line ∈ lines, line.length = barPlace widths widths.length + 1
  top : ∀ line ∈ lines[0]?, IsRule widths '┌' '┬' '┐' line.toList
  middle : ∀ line ∈ lines[2]?, IsRule widths '├' '┼' '┤' line.toList
  bottom : ∀ line ∈ lines[rows.length + 2]?, IsRule widths '└' '┴' '┘' line.toList
  row : ∀ i texts, rows[i]? = some texts →
    ∀ line ∈ lines[if i = 0 then 1 else i + 2]?, IsRow widths (align i) texts line.toList

end CanonicalLR.Report
