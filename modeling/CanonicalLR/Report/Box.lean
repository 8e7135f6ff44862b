/-!
Tables in boxes, and the colors of the output on a terminal. Every column is as wide as the longest
text in it, counted in characters; a row that is shorter than another has empty cells at its end. The
first row is the header.
-/

set_option autoImplicit false
set_option relaxedAutoImplicit false

namespace CanonicalLR.Report

inductive Color where
  | green
  | yellow
  deriving DecidableEq

/-- The control sequence that begins a color. -/
def Color.code : Color → String
  | .green => "\x1b[1;32m"
  | .yellow => "\x1b[1;33m"

/-- The control sequence that ends every color. -/
def Color.reset : String := "\x1b[0m"

/-- Whether output is colored. -/
structure Style where
  colored : Bool

namespace Style

def paint (style : Style) (color : Color) (text : String) : String :=
  if style.colored then color.code ++ text ++ Color.reset else text

def heading (style : Style) (title : String) : String :=
  style.paint .green ("==== " ++ title ++ " ====")

/-- A title line and the text under it, with a line feed after each. -/
def titled (style : Style) (title body : String) : String :=
  style.heading title ++ "\n" ++ body ++ "\n"

end Style

/-- The place of a text in its cell. -/
inductive Align where
  | left
  | center
  | right
  deriving DecidableEq

def repeated (c : Char) (count : Nat) : String := String.ofList (List.replicate count c)

/-- A text between spaces, such that it has the given width if it is not longer. A space that
cannot be halved goes to the right. -/
def Align.pad (align : Align) (width : Nat) (text : String) : String :=
  let missing := width - text.length
  let before := match align with
    | .left => 0
    | .center => missing / 2
    | .right => missing
  repeated ' ' before ++ text ++ repeated ' ' (missing - before)

namespace Box

/-- The lengths of the longest texts, column by column. -/
def widen : List Nat → List String → List Nat
  | widths, [] => widths
  | [], text :: texts => text.length :: widen [] texts
  | width :: widths, text :: texts => max width text.length :: widen widths texts

def widths (rows : List (List String)) : List Nat := rows.foldl widen []

/-- A horizontal rule: its left end, the junctions between columns, and its right end. -/
def rule (widths : List Nat) (left junction right : String) : String :=
  left ++ junction.intercalate (widths.map fun width => repeated '─' (width + 2)) ++ right

/-- The cells of a row, from column `j` on, each with the bar after it. -/
def fields (align : Nat → Align) : Nat → List Nat → List String → List String
  | _, [], _ => []
  | j, width :: widths, texts =>
    (" " ++ (align j).pad width (texts.headD "") ++ " │") ::
      fields align (j + 1) widths texts.tail

def line (widths : List Nat) (align : Nat → Align) (texts : List String) : String :=
  "│" ++ String.join (fields align 0 widths texts)

/-- The lines of the rows from row `i` on. -/
def body (widths : List Nat) (align : Nat → Nat → Align) : Nat → List (List String) → List String
  | _, [] => []
  | i, row :: rows => line widths (align i) row :: body widths align (i + 1) rows

/-- The table of the given rows, where `align` is told row and column; nothing at all if it has no
column. -/
def render (style : Style) (align : Nat → Nat → Align) (rows : List (List String)) : String :=
  let widths := widths rows
  match rows with
  | [] => ""
  | header :: rows =>
    if widths.isEmpty then ""
    else
      let top := [rule widths "┌" "┬" "┐", line widths (align 0) header, rule widths "├" "┼" "┤"]
      let bottom := rule widths "└" "┴" "┘"
      "\n".intercalate
        (style.paint .yellow ("\n".intercalate top) :: body widths align 1 rows ++ [bottom])

end Box

end CanonicalLR.Report
