import Formula.Unicode.Width

/-!
Tables drawn with lines. Columns are as wide as their widest cell, with a blank on both sides.
A cell may have several lines, and then its row is as high.
-/
namespace Formula.Text

/-- The head of a column, and whether its cells stand at the right. -/
structure Column where
  title : String
  atRight : Bool

namespace BoxTable

/-- The lines of a cell. -/
def linesOf (s : String) : List (List Char) :=
  s.toList.foldr
    (fun c lines => if c = '\n' then [] :: lines else
      match lines with
      | [] => [[c]]
      | l :: ls => (c :: l) :: ls)
    [[]]

def cellWidth (s : String) : Nat := ((linesOf s).map Unicode.textWidth).foldl max 0

def blanks (n : Nat) : List Char := List.replicate n ' '

def pad (width : Nat) (atRight : Bool) (line : List Char) : List Char :=
  let fill := blanks (width - Unicode.textWidth line)
  ' ' :: (if atRight then fill ++ line else line ++ fill) ++ [' ']

/-- A horizontal line: its left end, its stroke, its crossings, and its right end. -/
def rule (widths : List Nat) (left stroke crossing right : Char) : String :=
  String.ofList
    (left :: List.intercalate [crossing] (widths.map fun w => List.replicate (w + 2) stroke) ++
      [right])

/-- The lines of a row. -/
def rowLines (columns : List (Nat × Bool)) (cells : List String) : List String :=
  let cells := cells.map linesOf
  let height := (cells.map List.length).foldl max 0
  (List.range height).map fun i =>
    let parts := (columns.zip cells).map fun ((width, atRight), lines) =>
      pad width atRight (lines[i]?.getD [])
    String.ofList ('│' :: List.intercalate ['┆'] parts ++ ['│'])

/-- The rows of a table under the heads of its columns. -/
def render (columns : List Column) (rows : List (List String)) : String :=
  let titles := columns.map Column.title
  let widths := (titles :: rows).foldl
    (fun widths cells => widths.zipWith max (cells.map cellWidth)) (titles.map fun _ => 0)
  let shape := widths.zip (columns.map Column.atRight)
  let between := rule widths '├' '╌' '┼' '┤'
  "\n".intercalate
    ([rule widths '┌' '─' '┬' '┐'] ++ rowLines shape titles ++ [rule widths '╞' '═' '╪' '╡'] ++
      List.intercalate [between] (rows.map (rowLines shape)) ++
      [rule widths '└' '─' '┴' '┘'])

end BoxTable
end Formula.Text
