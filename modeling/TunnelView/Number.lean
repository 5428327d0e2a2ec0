import TunnelView.Number.Decimal

/-!
# Numbers: integers without bound, and doubles

A number remembers which of the two it is, because texts show it. Integers are added exactly;
as soon as a double takes part the result is a double. Comparison is exact across both kinds, by
their places on the extended line, so `9007199254740993` is above the double `2 ^ 53`.

Integers may be of any size, but only those of at most `Numeral.longestInteger` digits have a text.
Whoever asks for the text of a longer one fails, with the wording `Number.noText`.

Key definitions: `Number`, its order, `Number.hasText`, `Number.text`, `Number.wholeDigits`.
-/

namespace TunnelView

/-- The longest integer that is read or written, in digits. -/
def Numeral.longestInteger : Nat := 4300

/-- An integer or a double. -/
inductive Number where
  | int (n : Int)
  | double (x : Double)
deriving DecidableEq, Repr

namespace Number

instance : Inhabited Number := ⟨.int 0⟩

/-- The nearest double. -/
def toDouble : Number → Double
  | .int n => .ofInt n
  | .double x => x

/-- The place of a number on the extended line. -/
def exact : Number → Exact
  | .int n => .finite n 0
  | .double x => x.exact

/-- Exact on integers, rounded once if a double takes part. -/
def add : Number → Number → Number
  | .int a, .int b => .int (a + b)
  | a, b => .double (a.toDouble.add b.toDouble)

/-- Exact on integers, rounded once if a double takes part. -/
def sub : Number → Number → Number
  | .int a, .int b => .int (a - b)
  | a, b => .double (a.toDouble.sub b.toDouble)

instance : Add Number := ⟨add⟩
instance : Sub Number := ⟨sub⟩
instance : Zero Number := ⟨.double .zero⟩
instance : LT Number := ⟨fun a b => a.exact.lt b.exact = true⟩
instance : LE Number := ⟨fun a b => a.exact.le b.exact = true⟩
instance : DecidableLT Number := fun a b => inferInstanceAs (Decidable (a.exact.lt b.exact = true))
instance : DecidableLE Number := fun a b => inferInstanceAs (Decidable (a.exact.le b.exact = true))

/-- Whether two numbers stand at the same place; the undefined value stands nowhere. -/
def agrees (a b : Number) : Bool := a.exact.le b.exact && b.exact.le a.exact

/-- Whether the number counts as true: every number but zero does. -/
def truth : Number → Bool
  | .int n => n != 0
  | .double (.finite _ m _) => m != 0
  | .double _ => true

/-- Whether a number has a text; the sign does not count. -/
def hasText : Number → Bool
  | .int n => n.natAbs < Nat.pow 10 Numeral.longestInteger
  | .double _ => true

/-- Integers in decimal, doubles by their shortest text. -/
def text : Number → String
  | .int n => toString n
  | .double x => x.text

/-- The wording where a text is asked for and there is none. -/
def noText : String :=
  "Exceeds the limit (" ++ toString Numeral.longestInteger
    ++ " digits) for integer string conversion; use sys.set_int_max_str_digits() to increase the limit"

/-- A wording with the text of a number in it, or what comes instead. -/
def worded (n : Number) (wording : String) : String := if n.hasText then wording else noText

/-- The number without what is behind its point. -/
def wholeDigits : Number → String
  | .int n => toString n
  | .double x => match x.truncate? with
    | some n => toString n
    | none => x.text

end Number
end TunnelView
