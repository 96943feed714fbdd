import TensorLogic.Text.Width

/-!
# Reports that point into a text

A report shows the first line of a text, underlines a span of its characters and
hangs a message on the middle of the underline. Line and underline have to stand
below each other, so both are laid out in columns: a tab runs up to the next
multiple of 4, any other blank is one space, and every other character takes its
width. Characters behind the end of the shown line count as one column each.
-/

namespace TensorLogic.Text

/-- A span of characters of a text, with what there is to say about it. -/
structure Report where
  source : String
  first : Nat
  stop : Nat
  message : String
  deriving DecidableEq, Repr

namespace Report

/-- The first line of the text, without the blanks at its end. -/
def line (r : Report) : List Char :=
  (((r.source.toList.takeWhile fun c => !isLineEnd c).reverse).dropWhile isBlank).reverse

/-- What is drawn for the character at a position of the line, and its width. -/
def draw (position : Nat) (c : Char) : String × Nat :=
  if c = '\t' then
    let columns := 4 - position % 4
    ("".pushn ' ' columns, columns)
  else if isBlank c then (" ", 1)
  else (c.toString, width c)

/-- What is drawn for each character of the line. -/
def drawn (r : Report) : List (String × Nat) :=
  r.line.zipIdx.map fun (c, position) => draw position c

/-- `first`, and `more` behind it up to `columns` characters. -/
def stretch (first more : Char) : (columns : Nat) → String
  | 0 => ""
  | columns + 1 => first.toString.pushn more columns

/-- Draws every character up to the second one behind the span, each as wide as
the character of the line above it. -/
def row (r : Report) (draw : Nat → Nat → String) : String :=
  let widths := r.drawn.map (·.2)
  String.join <| (List.range (r.stop + 2)).map fun position =>
    draw position (widths.getD position 1)

/-- The character that the message hangs on. -/
def middle (r : Report) : Nat :=
  (r.first + r.stop) / 2

/-- What the underline has below a character. -/
def mark (r : Report) (position columns : Nat) : String :=
  if position = r.middle then stretch '┬' '─' columns
  else if r.first ≤ position ∧ position < r.stop then stretch '─' '─' columns
  else stretch ' ' ' ' columns

def underline (r : Report) : String :=
  r.row r.mark

/-- The line that leads from the span to the message. -/
def pointer (r : Report) : String :=
  r.row fun position columns =>
    if position < r.middle then stretch ' ' ' ' columns
    else if position = r.middle then stretch '╰' '─' columns
    else stretch '─' '─' columns

def text (r : Report) : String :=
  "Error: Malformed input\n"
    ++ "   ╭─[<unknown>:1:" ++ (r.first + 1).repr ++ "]\n"
    ++ "   │\n"
    ++ " 1 │ " ++ String.join (r.drawn.map (·.1)) ++ "\n"
    ++ "   │ " ++ r.underline ++ "\n"
    ++ "   │ " ++ r.pointer ++ " " ++ r.message ++ "\n"
    ++ "───╯\n"

end Report

end TensorLogic.Text
