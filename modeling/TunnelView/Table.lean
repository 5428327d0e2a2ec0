import TunnelView.Table.Cell
import TunnelView.Text.Blank
import TunnelView.Text.Lines

/-!
# Tables in a frame

Columns of numbers are lined up at their points and stand to the right, all others stand to the left
without blanks around them. A column is as wide as its widest cell, escapes aside, and two wider
than its header at least. If any cell has more than one line, a row has as many lines as its tallest
cell.

Key definitions: `Table.Column`, `Table.Column.cells`, `Table.render`.
-/

namespace TunnelView.Table

/-- A column: its header and its values. -/
structure Column where
  header : String
  values : List Value

/-- A text filled up with blanks in front. -/
def padStart (width : Nat) (cs : List Char) : List Char :=
  List.replicate (width - cs.length) ' ' ++ cs

/-- A text filled up with blanks behind. -/
def padEnd (width : Nat) (cs : List Char) : List Char :=
  cs ++ List.replicate (width - cs.length) ' '

/-- How far what is shown of a text reaches behind the point, counted so that none is least. -/
def reach (s : String) : Nat := ((Cell.tail? (Cell.shown s)).map (· + 1)).getD 0

/-- What the texts of a table call for: rows of more than one line, and care for escapes. -/
structure Needs where
  lines : Bool
  escapes : Bool
deriving DecidableEq, Repr

/-- How many characters of a text are shown. -/
def shownLength (cs : List Char) : Nat := (Text.Escape.strip cs).length

namespace Column

/-- The kind of a column. -/
def kind (c : Column) : Cell.Kind := Cell.columnKind c.values

/-- The cells written out: numbers with blanks behind so that their points line up, all else
without surrounding blanks. -/
def texts (needs : Needs) (c : Column) : List (List Char) :=
  let written := c.values.map (Cell.write needs.escapes c.kind)
  if c.kind.isNumeric then
    let furthest := (written.map reach).foldl max 0
    written.map fun s => s.toList ++ List.replicate (furthest - reach s) ' '
  else written.map fun s => Text.trimBlanks s.toList

/-- The width that cells are filled up to: that of the widest part of a cell. -/
def fullWidth (needs : Needs) (c : Column) : Nat :=
  ((c.texts needs).flatMap fun cs =>
    (if needs.lines then Text.parts cs else [cs]).map shownLength).foldl max (c.header.length + 2)

/-- A line of a cell, filled up to the width; `hidden` characters are not counted. -/
def pad (width hidden : Nat) (c : Column) : List Char → List Char :=
  if c.kind.isNumeric then padStart (width + hidden) else padEnd (width + hidden)

/-- The lines of a cell, filled up. In a table with escapes each line goes with the part of the cell
that has its number, and is filled up as that part would be. -/
def lines (needs : Needs) (width : Nat) (c : Column) (cs : List Char) : List (List Char) :=
  if needs.lines then
    if needs.escapes then
      List.zipWith (fun line part => c.pad width (Text.Escape.hidden part) line)
        (Text.splitLines cs) (Text.parts cs)
    else (Text.splitLines cs).map (c.pad width 0)
  else [c.pad width (Text.Escape.hidden cs) cs]

/-- The cells as lines. -/
def cells (needs : Needs) (c : Column) : List (List (List Char)) :=
  (c.texts needs).map (c.lines needs (c.fullWidth needs))

/-- The width of a column. -/
def width (needs : Needs) (c : Column) : Nat :=
  ((c.cells needs).flatten.map shownLength).foldl max (c.header.length + 2)

/-- Whether some cell has no text. -/
def isTextless (c : Column) : Bool := c.values.any (!·.hasText)

/-- Whether some cell cannot be written. -/
def isBeyond (c : Column) : Bool := c.kind == .double && c.values.any Cell.isBeyond

end Column

/-- The characters of a horizontal line: its ends, its stroke and its crossings. -/
structure Rule where
  first : Char
  stroke : Char
  crossing : Char
  last : Char

/-- The line on top. -/
def top : Rule := ⟨'╒', '═', '╤', '╕'⟩
/-- The line below the headers. -/
def belowHeader : Rule := ⟨'╞', '═', '╪', '╡'⟩
/-- The line between rows. -/
def between : Rule := ⟨'├', '─', '┼', '┤'⟩
/-- The line at the bottom. -/
def bottom : Rule := ⟨'╘', '═', '╧', '╛'⟩

/-- A horizontal line over columns of these widths. -/
def Rule.line (r : Rule) (widths : List Nat) : String :=
  let strokes := widths.map fun w => List.replicate (w + 2) r.stroke
  String.ofList (r.first :: [r.crossing].intercalate strokes ++ [r.last])

/-- One printed line of cells, each with a blank on either side. -/
def line (cells : List (List Char)) : String :=
  String.ofList ('│' :: ['│'].intercalate (cells.map fun cs => ' ' :: cs ++ [' ']) ++ ['│'])

/-- The printed lines of a row: cells with fewer lines are blank below. -/
def row (widths : List Nat) (cells : List (List (List Char))) : List String :=
  let height := (cells.map List.length).foldl max 0
  (List.range height).map fun i =>
    line ((cells.zip widths).map fun (lines, w) => lines[i]?.getD (List.replicate w ' '))

/-- The lists of items of the same place. -/
def transpose {α : Type} (count : Nat) (columns : List (List α)) : List (List α) :=
  (List.range count).map fun i => columns.filterMap (·[i]?)

/-- All headers and cells in one text. -/
def plainText (count : Nat) (columns : List Column) : List Char :=
  let rows := transpose count (columns.map fun c => c.values.map Value.display)
  ("\t".intercalate (columns.map (·.header) ++ rows.flatten)).toList

/-- What the texts of a table call for. An escape may begin in one cell and end in another. -/
def needs (count : Nat) (columns : List Column) : Needs where
  lines := Text.hasBreak (plainText count columns)
  escapes := Text.Escape.occurs (plainText count columns)

/-- A number that no double reaches, or that has no text. -/
structure Beyond where
  textless : Bool := false

/-- The wording for a number that no double reaches. -/
def Beyond.message : String := "int too large to convert to float"

/-- The wording for a number that no table can hold. -/
def Beyond.wording (number : Beyond) : String :=
  if number.textless then Number.noText else message

/-- A table of so many rows; the texts of all cells are looked through first. -/
def render (count : Nat) (columns : List Column) : Except Beyond (List String) :=
  if columns.any Column.isTextless then .error { textless := true }
  else if columns.any Column.isBeyond then .error {}
  else
    let needs := needs count columns
    let widths := columns.map (·.width needs)
    let headers := columns.map fun c => c.pad (c.width needs) 0 c.header.toList
    let rows := (transpose count (columns.map (·.cells needs))).map (row widths)
    .ok (top.line widths :: line headers :: belowHeader.line widths
      :: [between.line widths].intercalate rows ++ [bottom.line widths])

end TunnelView.Table
