/-!
# UTF-8

Bytes are read one at a time, with the character that is still open as the state. The first byte of
a character says how many follow and within which bounds the second must lie, which rules out long
forms, surrogates, and what is beyond Unicode. A fault names the bytes of the broken character.

Key definitions: `Utf8.Fault`, `Utf8.decode`.
-/

namespace TunnelView.Utf8

/-- What is wrong with a character. -/
inductive Reason where
  | start
  | continuation
  | ending
deriving DecidableEq, Repr

/-- A fault: the first byte of the broken character, its index, and the index behind it. -/
structure Fault where
  byte : UInt8
  start : Nat
  stop : Nat
  reason : Reason
deriving DecidableEq, Repr

/-- The wording of a reason. -/
def Reason.message : Reason → String
  | .start => "invalid start byte"
  | .continuation => "invalid continuation byte"
  | .ending => "unexpected end of data"

/-- The wording of a fault. -/
def Fault.message (f : Fault) : String :=
  let place :=
    if f.stop = f.start + 1 then
      let digits := Nat.toDigits 16 f.byte.toNat
      "byte 0x" ++ String.ofList (List.replicate (2 - digits.length) '0' ++ digits)
        ++ " in position " ++ toString f.start
    else "bytes in position " ++ toString f.start ++ "-" ++ toString (f.stop - 1)
  "'utf-8' codec can't decode " ++ place ++ ": " ++ f.reason.message

/-- A character of which some bytes are read: its first byte and its index, how many bytes are to
come, the bounds of the next, and what the bytes so far amount to. -/
structure Pending where
  byte : UInt8
  start : Nat
  missing : Nat
  low : Nat := 0x80
  high : Nat := 0xBF
  code : Nat

/-- What the first byte of a character of several bytes says. -/
def lead? (byte : UInt8) (start : Nat) : Option Pending :=
  let b := byte.toNat
  if 0xC2 ≤ b ∧ b ≤ 0xDF then some { byte, start, missing := 1, code := b - 0xC0 }
  else if b = 0xE0 then some { byte, start, missing := 2, low := 0xA0, code := 0 }
  else if b = 0xED then some { byte, start, missing := 2, high := 0x9F, code := b - 0xE0 }
  else if 0xE1 ≤ b ∧ b ≤ 0xEF then some { byte, start, missing := 2, code := b - 0xE0 }
  else if b = 0xF0 then some { byte, start, missing := 3, low := 0x90, code := 0 }
  else if 0xF1 ≤ b ∧ b ≤ 0xF3 then some { byte, start, missing := 3, code := b - 0xF0 }
  else if b = 0xF4 then some { byte, start, missing := 3, high := 0x8F, code := 4 }
  else none

/-- Reads on from an index, behind the characters in `done`, which are held backwards. -/
def decodeFrom (done : List Char) (index : Nat) :
    Option Pending → List UInt8 → Except Fault (List Char)
  | none, [] => .ok done.reverse
  | some p, [] => .error ⟨p.byte, p.start, index, .ending⟩
  | none, byte :: rest =>
    if byte.toNat < 0x80 then decodeFrom (Char.ofNat byte.toNat :: done) (index + 1) none rest
    else match lead? byte index with
      | none => .error ⟨byte, index, index + 1, .start⟩
      | some p => decodeFrom done (index + 1) (some p) rest
  | some p, byte :: rest =>
    let b := byte.toNat
    if p.low ≤ b ∧ b ≤ p.high then
      let code := p.code * 0x40 + (b - 0x80)
      if p.missing ≤ 1 then decodeFrom (Char.ofNat code :: done) (index + 1) none rest
      else
        let p : Pending := { byte := p.byte, start := p.start, missing := p.missing - 1, code }
        decodeFrom done (index + 1) (some p) rest
    else .error ⟨p.byte, p.start, index, .continuation⟩

/-- The characters of a text in UTF-8. -/
def decode (bytes : List UInt8) : Except Fault (List Char) := decodeFrom [] 0 none bytes

end TunnelView.Utf8
