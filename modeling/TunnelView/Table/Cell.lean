import TunnelView.Number.Numeral
import TunnelView.Text.Escape
import TunnelView.Value

/-!
# Cells of a table

A column takes its kind from all its cells: texts that look like numbers count as numbers, escapes
aside, and the most general kind wins. The kind decides how each cell is written. Columns of doubles
are written anew, with at most six digits; in any other column a text stands as it is, but for
coloured integers, which lose their leading zeros. An integer that no double reaches cannot be
written in a column of doubles.

Key definitions: `Cell.Kind`, `Cell.kindOf?`, `Cell.columnKind`, `Cell.write`, `Cell.tail?`,
`Cell.isBeyond`.
-/

namespace TunnelView.Cell

/-- The kinds of columns, from the least general on. -/
inductive Kind where
  | flag
  | integer
  | double
  | text
deriving DecidableEq, Repr

/-- How general a kind is. -/
def Kind.rank : Kind → Nat
  | .flag => 0
  | .integer => 1
  | .double => 2
  | .text => 3

/-- The more general of two kinds. -/
def Kind.join (a b : Kind) : Kind := if a.rank < b.rank then b else a

/-- Whether a column of the kind is one of numbers. -/
def Kind.isNumeric : Kind → Bool
  | .integer => true
  | .double => true
  | _ => false

/-- Groups of three digits, each behind a comma, and what follows them. -/
def skipGroups : List Char → List Char
  | ',' :: a :: b :: c :: rest =>
    if a.isDigit && b.isDigit && c.isDigit then skipGroups rest else ',' :: a :: b :: c :: rest
  | cs => cs

/-- Nothing, or one line feed. -/
def isEnd : List Char → Bool
  | [] => true
  | ['\n'] => true
  | _ => false

/-- A point and digits up to the end; at least `least` of them. -/
def isFraction (least : Nat) : List Char → Bool
  | '.' :: rest =>
    least ≤ (rest.takeWhile Char.isDigit).length && isEnd (rest.dropWhile Char.isDigit)
  | _ => false

/-- A sign, up to three digits, and groups of three behind commas; then perhaps a point and digits.
The digits in front may be missing where there are some behind the point. -/
def isGrouped (s : String) : Bool :=
  let cs := s.toList
  let digits := (Numeral.signed cs).2
  let front := digits.takeWhile Char.isDigit
  let whole :=
    if 0 < front.length && front.length ≤ 3 then
      let rest := skipGroups (digits.dropWhile Char.isDigit)
      isEnd rest || isFraction 0 rest
    else false
  whole || isEnd cs || isFraction 1 cs

/-- Whether a text stands for an integer. -/
def isIntegerText (s : String) : Bool := (Numeral.int? s).isSome

/-- Whether a text stands for a number. Infinities and the undefined value count only when they are
written out as plain words. -/
def isNumberText (s : String) : Bool :=
  match Numeral.double? s with
  | some (.finite _ _ _) => true
  | some _ => ["inf", "-inf", "nan"].contains (String.ofList (s.toList.map Char.toLower))
  | none => false

/-- The kind that a text has by itself. -/
def textKind (s : String) : Kind :=
  if s = "True" ∨ s = "False" then .flag
  else if isIntegerText s || (isGrouped s && !s.toList.contains '.') then .integer
  else if isNumberText s || isGrouped s then .double
  else .text

/-- What is shown of a text. -/
def shown (s : String) : String := String.ofList (Text.Escape.strip s.toList)

/-- The kind that a cell has by itself; one that shows nothing says nothing. -/
def kindOf? : Value → Option Kind
  | .null => none
  | .bool _ => some .flag
  | .number (.int _) => some .integer
  | .number (.double _) => some .double
  | .text s => if (shown s).isEmpty then none else some (textKind (shown s))
  | _ => some .text

/-- The kind of a column. -/
def columnKind (cells : List Value) : Kind :=
  cells.foldl (fun kind v => ((kindOf? v).map kind.join).getD kind) .flag

/-- What stands in an empty cell. -/
def missing : String := "N/A"

/-- The characters with `new` in place of `old` wherever it stands; `old` must not be empty. -/
def replaceWithin (old new : List Char) : Nat → List Char → List Char
  | 0, cs => cs
  | _ + 1, [] => []
  | n + 1, c :: rest =>
    if old.isPrefixOf (c :: rest) then
      new ++ replaceWithin old new n ((c :: rest).drop old.length)
    else c :: replaceWithin old new n rest

/-- The text with `new` in place of `old` wherever it stands. -/
def replaceAll (old new s : String) : String :=
  String.ofList (replaceWithin old.toList new.toList s.length s.toList)

/-- A text in a column of doubles, by itself: commas do not count. -/
def writeDouble (s : String) : String :=
  match Numeral.double? (String.ofList (s.toList.filter (· != ','))) with
  | some x => x.briefText
  | none => s

/-- A text in a column of doubles of a table with escapes: what is shown is written anew, around it
the escapes stay. -/
def writeColouredDouble (s : String) : String :=
  match Numeral.double? (shown s) with
  | some x => replaceAll (shown s) x.briefText s
  | none => s

/-- Whether a character is written as a code of two digits where only plain characters may stand. -/
def isCoded (c : Char) : Bool :=
  (c.toNat < 0x20 && c != '\t' && c != '\n' && c != '\r') || (0x7f ≤ c.toNat && c.toNat ≤ 0xff)

/-- Whether a character is a digit in base sixteen. -/
def isHexDigit (c : Char) : Bool :=
  c.isDigit || ('a' ≤ c && c ≤ 'f') || ('A' ≤ c && c ≤ 'F')

/-- A colour and the number behind it, at the front of a text: the colour, the digits and points of
the number, and the rest, which begins with a character that is not plain. -/
def coloured? : List Char → Option (List Char × List Char × List Char)
  | [] => none
  | c :: rest =>
    let code := rest.takeWhile isHexDigit
    match rest.drop code.length with
    | '[' :: more =>
      let colour := more.takeWhile Char.isDigit
      let ends := (more.drop colour.length).takeWhile fun c => c = 'm' || c = 'M'
      let behind := more.drop (colour.length + ends.length)
      let number := behind.takeWhile fun c => c.isDigit || c = '.'
      let rest := behind.drop number.length
      if isCoded c && !colour.isEmpty && !ends.isEmpty && !number.isEmpty
          && rest.head?.any fun c => c = '\\' || c.toNat < 0x20 || 0x7f ≤ c.toNat then
        some (c :: code ++ '[' :: colour ++ ends, number, rest)
      else none
    | _ => none

/-- The first colour with a number behind it, the number and the rest. -/
def firstColoured? : List Char → Option (List Char × List Char × List Char)
  | [] => none
  | c :: rest => (coloured? (c :: rest)).or (firstColoured? rest)

/-- A text in a column of integers: a coloured integer is written anew, without what stands before
its colour. -/
def writeInteger (s : String) : String :=
  match firstColoured? s.toList with
  | some (colour, number, rest) =>
    if number.all Char.isDigit then
      String.ofList (colour ++ (Nat.repr (Numeral.ofDigits number)).toList ++ rest)
    else s
  | none => s

/-- A cell written out in a column of a kind; `escapes` says that there are some in the table. -/
def write (escapes : Bool) (kind : Kind) (v : Value) : String :=
  match kind, v with
  | _, .null => missing
  | _, .text "" => ""
  | .double, .number n => n.toDouble.briefText
  | .double, .bool b => (Number.int (if b then 1 else 0)).toDouble.briefText
  | .double, .text s => if escapes then writeColouredDouble s else writeDouble s
  | .integer, .text s => writeInteger s
  | _, v => v.display

/-- Whether a cell is an integer that no double reaches. -/
def isBeyond : Value → Bool
  | .number (.int n) => (Double.ofInt n).isInfinite
  | _ => false

/-- How many characters stand behind the last of a kind, if it is there. -/
def behindLast (p : Char → Bool) (cs : List Char) : Option Nat :=
  if cs.any p then some (cs.reverse.takeWhile fun c => !p c).length else none

/-- How many characters of a number stand behind its point or, if it has none, behind the mark of
its exponent. -/
def tail? (s : String) : Option Nat :=
  if (isNumberText s || isGrouped s) && !isIntegerText s then
    (behindLast (· == '.') s.toList).or (behindLast (fun c => c == 'e' || c == 'E') s.toList)
  else none

end TunnelView.Cell
