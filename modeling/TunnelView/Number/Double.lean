/-!
# Binary floating-point numbers of 64 bits, held exactly

A finite double is a signed fraction `mantissa * 2 ^ exponent`. Every operation works out its exact
result as a fraction of natural numbers and rounds it once, by `ofRatio`: to the nearest double, a
tie to the even mantissa, to an infinity beyond the largest double. So nothing here leaves the
logic, and orders and sums can be evaluated in proofs.

Covered: sums, differences, comparison (exact, also against integers), truncation. Not covered:
products and quotients, payloads of undefined values.

Key definitions: `Double`, `Double.ofRatio`, `Double.ofInt`, `Double.ofDecimal`, `Double.exact`,
`Exact.lt`.
-/

namespace TunnelView

/-- A double: a signed fraction, an infinity, or the undefined value that no comparison holds of.
Zero has mantissa and exponent `0`; every other finite value that `Double.ofRatio` builds has the
largest mantissa below `2 ^ 53` that the exponent range allows, so equal values are equal terms. -/
inductive Double where
  | finite (negative : Bool) (mantissa : Nat) (exponent : Int)
  | infinite (negative : Bool)
  | undefined
deriving DecidableEq, Repr

/-- A point of the extended number line, or none: `finite n e` is the number `n * 2 ^ e`. -/
inductive Exact where
  | finite (n : Int) (e : Int)
  | bottom
  | top
  | nowhere
deriving DecidableEq, Repr

/-- `2 ^ e`, or one if `e` is negative. -/
def pow2 (e : Int) : Nat := Nat.pow 2 e.toNat

/-- `10 ^ e`, or one if `e` is negative. -/
def pow10 (e : Int) : Nat := Nat.pow 10 e.toNat

/-- The quotient `num / den` to the nearest integer; a tie goes to the even one. -/
def roundDiv (num den : Nat) : Nat :=
  let q := num / den
  let twice := 2 * (num % den)
  if twice < den then q
  else if den < twice then q + 1
  else if q % 2 = 0 then q
  else q + 1

namespace Exact

/-- The strict order of the extended line. The number that is nowhere is below and above nothing. -/
def lt : Exact → Exact → Bool
  | .nowhere, _ | _, .nowhere => false
  | .bottom, .bottom | .top, _ | _, .bottom => false
  | .bottom, _ | _, .top => true
  | .finite n e, .finite m f =>
    let low := min e f
    n * pow2 (e - low) < m * pow2 (f - low)

/-- The order of the extended line, on the numbers that are somewhere. -/
def le (a b : Exact) : Bool :=
  match a, b with
  | .nowhere, _ | _, .nowhere => false
  | a, b => !lt b a

end Exact

namespace Double

/-- The double zero. -/
def zero : Double := .finite false 0 0

/-- `num / den` divided by `2 ^ e`, again as a fraction. -/
def scaled (num den : Nat) (e : Int) : Nat × Nat := (num * pow2 (-e), den * pow2 e)

/-- The exponent of the last bit a double keeps of `num / den`: the quotient by `2 ^ e` has 53 bits,
unless that would go below the least exponent. -/
def lastBit (num den : Nat) : Int :=
  let e : Int := num.log2 - den.log2 - 52
  let (n, d) := scaled num den e
  max (if n < d * pow2 52 then e - 1 else e) (-1074)

/-- The double nearest to `num / den`, with the sign given. -/
def ofRatio (negative : Bool) (num den : Nat) : Double :=
  if num = 0 then .finite negative 0 0
  else
    let e := lastBit num den
    let (n, d) := scaled num den e
    let m := roundDiv n d
    let (m, e) := if m = pow2 53 then (pow2 52, e + 1) else (m, e)
    if m = 0 then .finite negative 0 0
    else if 971 < e then .infinite negative
    else .finite negative m e

/-- The double nearest to `n * 2 ^ e`, which keeps the sign of `n`; a zero has the sign given. -/
def ofScaled (zeroNegative : Bool) (n e : Int) : Double :=
  if n = 0 then .finite zeroNegative 0 0
  else ofRatio (n < 0) (n.natAbs * pow2 e) (pow2 (-e))

/-- The double nearest to an integer. -/
def ofInt (n : Int) : Double := ofScaled false n 0

/-- The double nearest to `digits * 10 ^ exponent`. Exponents far outside the range are settled
without working out the power. -/
def ofDecimal (negative : Bool) (digits : Nat) (exponent : Int) : Double :=
  let reach : Int := (Nat.repr digits).length + exponent
  if digits = 0 ∨ reach < -330 then .finite negative 0 0
  else if 310 < reach then .infinite negative
  else ofRatio negative (digits * pow10 exponent) (pow10 (-exponent))

/-- Where a double stands on the extended line. Both zeros stand at zero. -/
def exact : Double → Exact
  | .finite negative m e => .finite (if negative then -(m : Int) else m) e
  | .infinite true => .bottom
  | .infinite false => .top
  | .undefined => .nowhere

/-- Whether a double is one of the infinities. -/
def isInfinite : Double → Bool
  | .infinite _ => true
  | _ => false

/-- The same number with the other sign. -/
def neg : Double → Double
  | .finite negative m e => .finite (!negative) m e
  | .infinite negative => .infinite (!negative)
  | .undefined => .undefined

/-- The sum, rounded once. Opposite infinities have none; a zero sum is negative only if both
terms are. -/
def add : Double → Double → Double
  | .undefined, _ | _, .undefined => .undefined
  | .infinite a, .infinite b => if a = b then .infinite a else .undefined
  | .infinite a, _ | _, .infinite a => .infinite a
  | x@(.finite a m e), y@(.finite b k f) =>
    if m = 0 ∧ k = 0 then .finite (a && b) 0 0
    else if m = 0 then y
    else if k = 0 then x
    else
      let low := min e f
      let n : Int := (if a then -(m : Int) else m) * pow2 (e - low)
      let l : Int := (if b then -(k : Int) else k) * pow2 (f - low)
      ofScaled false (n + l) low

/-- The difference, rounded once. -/
def sub (x y : Double) : Double := add x y.neg

/-- The integer part, for finite values: what is behind the point is dropped. -/
def truncate? : Double → Option Int
  | .finite negative m e =>
    let n : Nat := m * pow2 e / pow2 (-e)
    some (if negative then -n else n)
  | _ => none

/-- The integer a double stands for, if it stands for one. -/
def toInt? : Double → Option Int
  | .finite negative m e =>
    let n : Nat := m * pow2 e
    if n % pow2 (-e) = 0 then
      let n : Nat := n / pow2 (-e)
      some (if negative then -n else n)
    else none
  | _ => none

end Double
end TunnelView
