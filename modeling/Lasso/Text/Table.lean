/-!
# Tables in plain text

Lays out lines whose cells end in tabs. Cells that stand in the same column of neighbouring lines are
made equally wide with blanks. The text behind the last tab of a line belongs to no column, so a
line that has too few tabs parts the lines above it from those below it. A form feed ends a line
like a newline, and parts the lines above it from those below it, too.

* `Table.rows` reads the lines and their cells;
* `Table.layout` gives the text with the columns lined up.
-/

namespace Lasso.Text.Table

/-! ## 1. Lines and cells -/

/-- What ends a line. -/
inductive Ending where
  | newline
  | formFeed
  /-- The end of the text. -/
  | open_
  deriving DecidableEq, Repr

/-- A line: its cells, the last of which belongs to no column, and its end. -/
structure Row where
  cells : List String
  ending : Ending
  deriving DecidableEq, Repr

/-- Whether a character ends a cell. -/
def endsCell (c : Char) : Bool := c = '\t' || c = '\x0b'

/-- Reads the lines of a text; `cells` are the cells of the current line and `cell` the characters of
the current cell, both from the last to the first. -/
def readRows (cells : List String) (cell : List Char) : List Char → List Row
  | [] =>
    let cells := if cell.isEmpty then cells else String.ofList cell.reverse :: cells
    if cells.isEmpty then [] else [⟨cells.reverse, .open_⟩]
  | c :: cs =>
    let done := String.ofList cell.reverse :: cells
    if endsCell c then readRows done [] cs
    else if c = '\n' then ⟨done.reverse, .newline⟩ :: readRows [] [] cs
    else if c = '\x0c' then ⟨done.reverse, .formFeed⟩ :: readRows [] [] cs
    else readRows cells (c :: cell) cs

/-- The lines of a text. -/
def rows (text : String) : List Row := readRows [] [] text.toList

/-! ## 2. Columns -/

/-- How wide the columns are: as wide as their widest cell with the padding, and no less than
`least`. -/
structure Format where
  least : Nat
  padding : Nat
  deriving DecidableEq, Repr

/-- Whether a line has a cell in a column. -/
def Row.reaches (r : Row) (column : Nat) : Bool := column + 1 < r.cells.length

/-- The width of a column over neighbouring lines. -/
def columnWidth (f : Format) (column : Nat) (rs : List Row) : Nat :=
  (rs.map fun r => (r.cells.getD column "").length + f.padding).foldl max f.least

/-- A line with blanks behind the cells that stand in columns of the given widths. -/
def Row.text (widths : List Nat) (r : Row) : String :=
  String.join (r.cells.zipIdx.map fun (cell, i) =>
    match widths[i]? with
    | some w => cell ++ String.ofList (List.replicate (w - cell.length) ' ')
    | none => cell) ++
    match r.ending with
    | .open_ => ""
    | _ => "\n"

/-- Lays out neighbouring lines whose first columns have the given widths. -/
def layoutRows (f : Format) : (columns : Nat) → (widths : List Nat) → List Row → List String
  | 0, widths, rs => rs.map (Row.text widths)
  | columns + 1, widths, rs =>
    let column := widths.length
    (rs.splitBy fun r s => r.reaches column == s.reaches column).flatMap fun block =>
      if block.any (Row.reaches · column) then
        layoutRows f columns (widths ++ [columnWidth f column block]) block
      else block.map (Row.text widths)

/-- Parts the lines behind each form feed. -/
def pages (rs : List Row) : List (List Row) := rs.splitBy fun r _ => r.ending ≠ .formFeed

/-- The text with the columns lined up. -/
def layout (f : Format) (text : String) : String :=
  String.join ((pages (rows text)).flatMap fun rs =>
    layoutRows f ((rs.map (·.cells.length)).foldl max 0) [] rs)

end Lasso.Text.Table
