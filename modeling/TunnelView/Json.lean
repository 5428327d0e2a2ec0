import TunnelView.Number.Numeral
import TunnelView.Value

/-!
# Reading JSON documents

The reader goes through the characters once and keeps their index, so a fault can say where the
text stops being JSON. Beyond the standard it takes the words `NaN`, `Infinity` and `-Infinity` for
numbers, and of a repeated key it keeps the first place and the last value. A number with a point or
an exponent is a double, any other an integer of at most `Numeral.longestInteger` digits.

Texts are made of characters. An escape for one half of a surrogate pair without the other stands for
none. Such a half is read as a private character that stands in for it, and the first one is
remembered: `document` gives it back beside the value, and `read` takes no document with halves.

Nesting has a limit. Apart from that every step is followed by a count that starts at twice the
length of the text: every two steps take at least one character, so the count never runs out.

Key definitions: `Json.Fault`, `Json.Fault.message`, `Json.document`, `Json.read`.
-/

namespace TunnelView.Json

/-- What is wrong with a text that is not JSON. -/
inductive Problem where
  | noValue
  | noName
  | noColon
  | noComma
  | openString
  | controlCharacter
  | escape
  | unicodeEscape
  | moreData
  | byteOrderMark
deriving DecidableEq, Repr

/-- What nests. -/
inductive Nest where
  | list
  | object
deriving DecidableEq, Repr

/-- The name of what nests, as messages have it. -/
def Nest.name : Nest → String
  | .list => "array"
  | .object => "object"

/-- A fault: a problem and the index of its character, an integer with too many digits, or a list or
object that is nested too deep. -/
inductive Fault where
  | found (problem : Problem) (index : Nat)
  | longInteger (digits : Nat)
  | tooDeep (nest : Nest)
deriving DecidableEq, Repr

/-- How many lists and objects may be open at once. -/
def deepest : Nat := 989

/-- The wording of a problem. -/
def Problem.message : Problem → String
  | .noValue => "Expecting value"
  | .noName => "Expecting property name enclosed in double quotes"
  | .noColon => "Expecting ':' delimiter"
  | .noComma => "Expecting ',' delimiter"
  | .openString => "Unterminated string starting at"
  | .controlCharacter => "Invalid control character at"
  | .escape => "Invalid \\escape"
  | .unicodeEscape => "Invalid \\uXXXX escape"
  | .moreData => "Extra data"
  | .byteOrderMark => "Unexpected UTF-8 BOM (decode using utf-8-sig)"

/-- The characters that are still to be read, the index of the first of them, and the first half of a
surrogate pair that stood alone so far. -/
structure Input where
  rest : List Char
  index : Nat
  half? : Option Nat := none

namespace Input

/-- Goes on behind `n` characters. -/
def skip (input : Input) (n : Nat) : Input :=
  { input with rest := input.rest.drop n, index := input.index + n }

/-- Goes on behind white space. -/
def skipBlanks (input : Input) : Input :=
  input.skip (input.rest.takeWhile fun c => c = ' ' ∨ c = '\t' ∨ c = '\n' ∨ c = '\r').length

/-- Fails here. -/
def fail {α : Type} (input : Input) (problem : Problem) : Except Fault (α × Input) :=
  .error (.found problem input.index)

end Input

/-- The value of a digit in base sixteen. -/
def hexValue? (c : Char) : Option Nat :=
  if c.isDigit then some (c.toNat - 0x30)
  else if 'a' ≤ c ∧ c ≤ 'f' then some (c.toNat - 0x57)
  else if 'A' ≤ c ∧ c ≤ 'F' then some (c.toNat - 0x37)
  else none

/-- The code unit of four digits in base sixteen. -/
def codeUnit? : List Char → Option Nat
  | a :: b :: c :: d :: _ => do
    let a ← hexValue? a
    let b ← hexValue? b
    let c ← hexValue? c
    let d ← hexValue? d
    return ((a * 16 + b) * 16 + c) * 16 + d
  | _ => none

/-- The character that a backslash and a letter stand for. -/
def shortEscape? : Char → Option Char
  | '"' => some '"'
  | '\\' => some '\\'
  | '/' => some '/'
  | 'b' => some '\x08'
  | 'f' => some '\x0c'
  | 'n' => some '\n'
  | 'r' => some '\r'
  | 't' => some '\t'
  | _ => none

/-- The character that stands in for half of a surrogate pair: the halves, in their order, are the
last of the private characters. -/
def standIn (unit : Nat) : Char := Char.ofNat (unit + 0x102000)

/-- The half that a character stands in for, in a document with halves. -/
def half? (c : Char) : Option Nat :=
  if c.toNat < 0x10F800 then none else some (c.toNat - 0x102000)

/-- The character of a code unit that stands alone. -/
def single (unit : Nat) (behind : Input) : Char × Input :=
  if 0xD800 ≤ unit ∧ unit < 0xE000 then
    (standIn unit, { behind with half? := behind.half?.or (some unit) })
  else (Char.ofNat unit, behind)

/-- The character of one or two code units behind `\u`. The escape must not end the text, and a
second unit is taken only behind a high surrogate, if it is a low one. -/
def unicodeEscape (input : Input) : Except Fault (Char × Input) :=
  let digits := input.skip 1
  if (digits.rest.drop 4).isEmpty then input.fail .unicodeEscape
  else match codeUnit? digits.rest with
    | none => input.fail .unicodeEscape
    | some unit =>
      let behind := digits.skip 4
      match behind.rest with
      | '\\' :: 'u' :: second =>
        if 0xD800 ≤ unit ∧ unit < 0xDC00 ∧ !(second.drop 4).isEmpty then
          match codeUnit? second with
          | none => (behind.skip 1).fail .unicodeEscape
          | some low =>
            if 0xDC00 ≤ low ∧ low < 0xE000 then
              .ok (Char.ofNat (0x10000 + (unit - 0xD800) * 0x400 + (low - 0xDC00)), behind.skip 6)
            else .ok (single unit behind)
        else .ok (single unit behind)
      | _ => .ok (single unit behind)

/-- The characters of a string, up to and with its closing quote; `opening` is where it began. -/
def stringBody (opening : Nat) : Nat → Input → List Char → Except Fault (String × Input)
  | 0, _, _ => .error (.found .openString opening)
  | fuel + 1, input, done =>
    match input.rest with
    | [] => .error (.found .openString opening)
    | '"' :: _ => .ok (String.ofList done.reverse, input.skip 1)
    | ['\\'] => .error (.found .openString opening)
    | '\\' :: 'u' :: _ => do
      let (c, input) ← unicodeEscape (input.skip 1)
      stringBody opening fuel input (c :: done)
    | '\\' :: letter :: _ =>
      match shortEscape? letter with
      | some c => stringBody opening fuel (input.skip 2) (c :: done)
      | none => input.fail .escape
    | c :: _ =>
      if c.toNat < 0x20 then input.fail .controlCharacter
      else stringBody opening fuel (input.skip 1) (c :: done)

/-- A string, from its opening quote. -/
def string (input : Input) : Except Fault (String × Input) :=
  stringBody input.index input.rest.length (input.skip 1) []

/-- The digits of a whole number, if they come next: behind a leading zero there are none. -/
def wholeDigits : List Char → List Char
  | '0' :: _ => ['0']
  | rest => rest.takeWhile Char.isDigit

/-- The characters of a point with digits behind it, if they come next. -/
def places : List Char → List Char
  | '.' :: rest => rest.takeWhile Char.isDigit
  | _ => []

/-- The characters of an exponent with its mark, if one comes next. -/
def exponentMark : List Char → List Char
  | e :: rest =>
    if e = 'e' ∨ e = 'E' then
      let sign := match rest with
        | '-' :: _ => ['-']
        | '+' :: _ => ['+']
        | _ => []
      let digits := (rest.drop sign.length).takeWhile Char.isDigit
      if digits.isEmpty then [] else e :: sign ++ digits
    else []
  | [] => []

/-- A number behind its sign. -/
def unsigned (negative : Bool) (input : Input) : Except Fault (Number × Input) :=
  let whole := wholeDigits input.rest
  let behind := input.skip whole.length
  let places := places behind.rest
  let behind := if places.isEmpty then behind else behind.skip (places.length + 1)
  let mark := exponentMark behind.rest
  let behind := behind.skip mark.length
  if places.isEmpty && mark.isEmpty then
    if Numeral.longestInteger < whole.length then .error (.longInteger whole.length)
    else
      let n : Int := Numeral.ofDigits whole
      .ok (.int (if negative then -n else n), behind)
  else
    let e := (Numeral.exponent? mark).getD 0
    .ok (.double (.ofDecimal negative (Numeral.ofDigits (whole ++ places)) (e - places.length)),
      behind)

/-- A number, or a fault if none starts here. -/
def number (input : Input) : Except Fault (Number × Input) :=
  let negative := input.rest.head? = some '-'
  let start := if negative then input.skip 1 else input
  if (wholeDigits start.rest).isEmpty then input.fail .noValue else unsigned negative start

/-- The words that stand for values. -/
def words : List (List Char × Value) := [
  ("null".toList, .null),
  ("true".toList, .bool true),
  ("false".toList, .bool false),
  ("NaN".toList, .number (.double .undefined)),
  ("Infinity".toList, .number (.double (.infinite false))),
  ("-Infinity".toList, .number (.double (.infinite true)))]

mutual

/-- A value that starts here, with room for so many more levels. -/
def value (room : Nat) : Nat → Input → Except Fault (Value × Input)
  | 0, input => input.fail .noValue
  | fuel + 1, input =>
    match input.rest with
    | '"' :: _ => do
      let (s, input) ← string input
      return (.text s, input)
    | '[' :: _ =>
      match room with
      | 0 => .error (.tooDeep .list)
      | room + 1 =>
        let inside := (input.skip 1).skipBlanks
        match inside.rest with
        | ']' :: _ => .ok (.list [], inside.skip 1)
        | _ => do
          let (items, input) ← items room fuel inside
          return (.list items, input)
    | '\x7b' :: _ =>
      match room with
      | 0 => .error (.tooDeep .object)
      | room + 1 =>
        let inside := (input.skip 1).skipBlanks
        match inside.rest with
        | '\x7d' :: _ => .ok (.object [], inside.skip 1)
        | _ => do
          let (fields, input) ← fields room fuel inside []
          return (.object fields, input)
    | rest =>
      match words.find? fun word => word.1.isPrefixOf rest with
      | some (word, v) => .ok (v, input.skip word.length)
      | none => do
        let (n, input) ← number input
        return (.number n, input)

/-- The items of a list that is not empty, and its closing bracket. -/
def items (room : Nat) : Nat → Input → Except Fault (List Value × Input)
  | 0, input => input.fail .noValue
  | fuel + 1, input => do
    let (v, input) ← value room fuel input
    let input := input.skipBlanks
    match input.rest with
    | ']' :: _ => return ([v], input.skip 1)
    | ',' :: _ =>
      let (more, input) ← items room fuel (input.skip 1).skipBlanks
      return (v :: more, input)
    | _ => input.fail .noComma

/-- The fields of an object that is not empty, behind those in `done`, and its closing brace. -/
def fields (room : Nat) :
    Nat → Input → List (String × Value) → Except Fault (List (String × Value) × Input)
  | 0, input, _ => input.fail .noName
  | fuel + 1, input, done =>
    match input.rest with
    | '"' :: _ => do
      let (key, input) ← string input
      let input := input.skipBlanks
      match input.rest with
      | ':' :: _ =>
        let (v, input) ← value room fuel (input.skip 1).skipBlanks
        let done := insertField done key v
        let input := input.skipBlanks
        match input.rest with
        | '\x7d' :: _ => return (done, input.skip 1)
        | ',' :: _ => fields room fuel (input.skip 1).skipBlanks done
        | _ => input.fail .noComma
      | _ => input.fail .noColon
    | _ => input.fail .noName

end

/-- The value that a text holds, with nothing but white space around it, and the first half of a
surrogate pair in it, if there is one. -/
def document (text : List Char) : Except Fault (Value × Option Nat) :=
  match text with
  | '\ufeff' :: _ => .error (.found .byteOrderMark 0)
  | _ => do
    let input : Input := { rest := text, index := 0 }
    let (v, input) ← value deepest (2 * text.length + 1) input.skipBlanks
    let behind := input.skipBlanks
    if behind.rest.isEmpty then return (v, behind.half?)
    else .error (.found .moreData behind.index)

/-- The value that a text holds, if it is made of characters; else why not, or half of a surrogate
pair in it. -/
def read (text : List Char) : Except (Fault ⊕ Nat) Value :=
  match document text with
  | .ok (v, none) => .ok v
  | .ok (_, some unit) => .error (.inr unit)
  | .error fault => .error (.inl fault)

/-- The line of an index and the column in it, both counted from one. -/
def position (text : List Char) (index : Nat) : Nat × Nat :=
  let before := text.take index
  (before.count '\n' + 1, (before.reverse.takeWhile (· != '\n')).length + 1)

/-- The wording of a fault in a text. -/
def Fault.message (text : List Char) : Fault → String
  | .found problem index =>
    let (line, column) := position text index
    problem.message ++ ": line " ++ toString line ++ " column " ++ toString column
      ++ " (char " ++ toString index ++ ")"
  | .longInteger digits =>
    "Exceeds the limit (" ++ toString Numeral.longestInteger
      ++ " digits) for integer string conversion: value has " ++ toString digits
      ++ " digits; use sys.set_int_max_str_digits() to increase the limit"
  | .tooDeep nest =>
    "maximum recursion depth exceeded while decoding a JSON " ++ nest.name
      ++ " from a unicode string"

end TunnelView.Json
