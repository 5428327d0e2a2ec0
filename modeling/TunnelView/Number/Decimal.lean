import TunnelView.Number.Double

/-!
# Decimal text of doubles

A positive double is first turned into decimal digits with the place of the point (`Digits`), in one
of two ways: the fewest digits that round back to it (`Double.shortest`), or a fixed count of them
(`Double.significant`). A `Layout` then says where positional notation ends and whether a whole
number keeps a point, and `Digits.write` follows it. Fixed places come straight from one rounded
division.

Key definitions: `Double.shortest`, `Double.significant`, `Layout`, `Double.write`, `Double.wholeText`.
-/

namespace TunnelView

/-- The number `0.d₁d₂… * 10 ^ point`, where the digits are those of `digits`. -/
structure Digits where
  digits : Nat
  point : Int
deriving DecidableEq, Repr

/-- The number of decimal digits of `n`; one for zero. -/
def decimalLength (n : Nat) : Nat := (Nat.repr n).length

/-- The `p` with `10 ^ (p - 1) ≤ num / den < 10 ^ p`, for a positive fraction. -/
def decimalPoint (num den : Nat) : Int :=
  if den ≤ num then decimalLength (num / den)
  else 1 - decimalLength ((den - 1) / num)

/-- `num / den` in units of `10 ^ e`, as a fraction. -/
def decimalScaled (num den : Nat) (e : Int) : Nat × Nat := (num * pow10 (-e), den * pow10 e)

/-- `n` without the zeros at its end. -/
def dropZeros (n : Nat) : Nat :=
  if n ≠ 0 ∧ n % 10 = 0 then dropZeros (n / 10) else n

/-- Digits of `digits * 10 ^ exponent`, without the zeros at the end. -/
def Digits.ofScaled (digits : Nat) (exponent : Int) : Digits where
  digits := dropZeros digits
  point := decimalLength digits + exponent

/-- How digits are written out. -/
structure Layout where
  /-- The largest `point` that is written positionally. -/
  lastPositional : Int
  /-- Whether a whole number in positional notation gets `.0` behind it. -/
  keepsPoint : Bool
deriving DecidableEq, Repr

/-- Shortest text: sixteen places before the point, and a whole number shows that it is a double. -/
def Layout.full : Layout := ⟨16, true⟩

/-- Text of table cells: six places before the point, a whole number shows none. -/
def Layout.brief : Layout := ⟨6, false⟩

namespace Digits

/-- An exponent has a sign and at least two digits. -/
def exponentText (e : Int) : String :=
  let size := Nat.repr e.natAbs
  (if e < 0 then "e-" else "e+") ++ (if size.length < 2 then "0" ++ size else size)

/-- Positional from `point = -3` up to the layout's last, with an exponent outside. -/
def write (layout : Layout) (d : Digits) : String :=
  let text := (Nat.repr d.digits).toList
  if d.point < -3 ∨ layout.lastPositional < d.point then
    let mantissa := match text with
      | first :: second :: rest => String.ofList (first :: '.' :: second :: rest)
      | short => String.ofList short
    mantissa ++ exponentText (d.point - 1)
  else if d.point ≤ 0 then
    "0." ++ String.ofList (List.replicate (-d.point).toNat '0' ++ text)
  else
    let whole := d.point.toNat
    if text.length ≤ whole then
      String.ofList (text ++ List.replicate (whole - text.length) '0')
        ++ (if layout.keepsPoint then ".0" else "")
    else String.ofList (text.take whole ++ '.' :: text.drop whole)

end Digits

namespace Double

/-- The magnitude of a finite double as a fraction. -/
def magnitude (mantissa : Nat) (exponent : Int) : Nat × Nat :=
  (mantissa * pow2 exponent, pow2 (-exponent))

/-- Whether `c * 10 ^ e` rounds to the double `mantissa * 2 ^ exponent`. -/
def readsBack (mantissa : Nat) (exponent : Int) (c : Nat) (e : Int) : Bool :=
  ofRatio false (c * pow10 e) (pow10 (-e)) = .finite false mantissa exponent

/-- Of the two neighbours on the grid of `count` digits, the one that reads back; of two the nearer,
and the even one if both are equally near. -/
def onGrid (mantissa : Nat) (exponent : Int) (count : Nat) : Option Digits :=
  let (num, den) := magnitude mantissa exponent
  let e := decimalPoint num den - count
  let (n, d) := decimalScaled num den e
  let low := n / d
  let twice := 2 * (n % d)
  let lowFirst := twice < d ∨ (twice = d ∧ low % 2 = 0)
  let (first, second) := if lowFirst then (low, low + 1) else (low + 1, low)
  if readsBack mantissa exponent first e then some (.ofScaled first e)
  else if readsBack mantissa exponent second e then some (.ofScaled second e)
  else none

/-- The fewest digits that read back, for a positive double. Seventeen always do. -/
def shortest (mantissa : Nat) (exponent : Int) : Digits :=
  ((List.range 17).findSome? fun count => onGrid mantissa exponent (count + 1)).getD ⟨0, 1⟩

/-- The nearest number of `count` digits, for a positive double. -/
def significant (count : Nat) (mantissa : Nat) (exponent : Int) : Digits :=
  let (num, den) := magnitude mantissa exponent
  let e := decimalPoint num den - count
  let (n, d) := decimalScaled num den e
  .ofScaled (roundDiv n d) e

/-- The texts of what has no digits. -/
def writeSpecial : Double → String
  | .infinite true => "-inf"
  | .infinite false => "inf"
  | _ => "nan"

/-- A double written with the digits that `pick` chooses. -/
def write (layout : Layout) (pick : Nat → Int → Digits) : Double → String
  | .finite negative m e =>
    (if negative then "-" else "") ++ (if m = 0 then ⟨0, 1⟩ else pick m e : Digits).write layout
  | x => x.writeSpecial

/-- The shortest text that reads back. -/
def text (x : Double) : String := x.write .full shortest

/-- At most six significant digits. -/
def briefText (x : Double) : String := x.write .brief (significant 6)

/-- The nearest whole number, a half to the even one; the sign stays even on zero. -/
def wholeText : Double → String
  | .finite negative m e =>
    let (num, den) := magnitude m e
    (if negative then "-" else "") ++ Nat.repr (roundDiv num den)
  | x => x.writeSpecial

end Double
end TunnelView
