/-!
# Lines of a text

A line ends at any line or paragraph separator; a carriage return with a line feed behind it is one
end. Nothing stands behind an end that ends the text.

Key definitions: `isLineEnd`, `splitLines`, `hasBreak`, `parts`, `plainEnds`.
-/

namespace TunnelView.Text

/-- The characters that end a line. -/
def isLineEnd (c : Char) : Bool :=
  c = '\n' || c = '\x0b' || c = '\x0c' || c = '\r' || c = '\x1c' || c = '\x1d' || c = '\x1e'
    || c = '\x85' || c = '\u2028' || c = '\u2029'

/-- The lines from here on, where `line` holds the open line backwards. -/
def linesFrom (line : List Char) : List Char → List (List Char)
  | [] => if line.isEmpty then [] else [line.reverse]
  | '\r' :: '\n' :: rest => line.reverse :: linesFrom [] rest
  | c :: rest =>
    if isLineEnd c then line.reverse :: linesFrom [] rest else linesFrom (c :: line) rest

/-- The lines of a text. -/
def splitLines (cs : List Char) : List (List Char) := linesFrom [] cs

/-- Whether a character is a line feed or a carriage return. -/
def isReturn (c : Char) : Bool := c = '\n' || c = '\r'

/-- Whether a text has a line feed or a carriage return. -/
def hasBreak (cs : List Char) : Bool := cs.any isReturn

/-- The parts of a text between line feeds and carriage returns, where `part` holds the open part
backwards. -/
def partsFrom (part : List Char) : List Char → List (List Char)
  | [] => [part.reverse]
  | c :: rest =>
    if isReturn c then part.reverse :: partsFrom [] rest else partsFrom (c :: part) rest

/-- The parts of a text between line feeds and carriage returns; always at least one. -/
def parts (cs : List Char) : List (List Char) := partsFrom [] cs

/-- A text in which every line feed, carriage return, or both in a row is one line feed. -/
def plainEnds : List Char → List Char
  | [] => []
  | '\r' :: '\n' :: rest => '\n' :: plainEnds rest
  | c :: rest => (if c = '\r' then '\n' else c) :: plainEnds rest

end TunnelView.Text
