import TunnelView.Number
import TunnelView.Text.Blank

/-!
# Numbers written as text

What counts as an integer or a double when it comes as free text, from a command line or a table
cell: blanks around it, a sign, decimal digits of any script, and single underscores between digits.
Doubles may have a point, an exponent, or be one of the words for infinity and the undefined value.

Key definitions: `Numeral.int?`, `Numeral.double?`.
-/

namespace TunnelView.Numeral

open Text

/-- Blanks that may surround a number: all but the information separators. -/
def isPadding (c : Char) : Bool := isBlank c && !(0x1c ≤ c.toNat && c.toNat ≤ 0x1f)

/-- The characters without surrounding blanks, every digit as its ASCII form. -/
def plain (s : String) : List Char :=
  let trimmed := ((s.toList.dropWhile isPadding).reverse.dropWhile isPadding).reverse
  trimmed.map fun c => match digitValue? c with
    | some d => Char.ofNat (0x30 + d)
    | none => c

/-- The characters without underscores, if each underscore stands between two digits. -/
def joinDigits (afterDigit : Bool) : List Char → Option (List Char)
  | [] => some []
  | c :: rest =>
    if c = '_' then
      if afterDigit && (rest.head?.map Char.isDigit).getD false then joinDigits false rest else none
    else (joinDigits c.isDigit rest).map (c :: ·)

/-- The number that decimal digits stand for. -/
def ofDigits (cs : List Char) : Nat := cs.foldl (fun n c => n * 10 + (c.toNat - 0x30)) 0

/-- A sign in front, or none. -/
def signed : List Char → Bool × List Char
  | '-' :: rest => (true, rest)
  | '+' :: rest => (false, rest)
  | cs => (false, cs)

/-- The integer that a text stands for. -/
def int? (s : String) : Option Int := do
  let (negative, digits) := signed (← joinDigits false (plain s))
  if digits.isEmpty || !digits.all Char.isDigit || longestInteger < digits.length then none
  else
    let n : Int := ofDigits digits
    return if negative then -n else n

/-- The exponent behind the digits of a double: none, or `e` with a sign and digits. -/
def exponent? : List Char → Option Int
  | [] => some 0
  | e :: rest =>
    let (negative, digits) := signed rest
    if (e = 'e' ∨ e = 'E') && !digits.isEmpty && digits.all Char.isDigit then
      let n : Int := ofDigits digits
      some (if negative then -n else n)
    else none

/-- A double without its sign. -/
def unsigned? (negative : Bool) (cs : List Char) : Option Double :=
  let word := cs.map Char.toLower
  if word = ['i', 'n', 'f'] ∨ word = "infinity".toList then some (.infinite negative)
  else if word = ['n', 'a', 'n'] then some .undefined
  else
    let whole := cs.takeWhile Char.isDigit
    let rest := cs.dropWhile Char.isDigit
    let (places, rest) := match rest with
      | '.' :: more => (more.takeWhile Char.isDigit, more.dropWhile Char.isDigit)
      | rest => ([], rest)
    if whole.isEmpty && places.isEmpty then none
    else (exponent? rest).map fun e =>
      .ofDecimal negative (ofDigits (whole ++ places)) (e - places.length)

/-- The double that a text stands for. -/
def double? (s : String) : Option Double := do
  let (negative, rest) := signed (← joinDigits false (plain s))
  unsigned? negative rest

end TunnelView.Numeral
