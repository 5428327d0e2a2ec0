import TunnelView.Folder
import TunnelView.Json
import TunnelView.Script
import TunnelView.Text.Lines
import TunnelView.Text.Utf8

/-!
# Scripts from files

A script file is a JSON document in UTF-8; whichever way its lines end, they count as ending in a
line feed. What goes wrong before the document is there to be checked has a wording of its own. A
path with a zero character is no path at all, and is refused before any file is looked for.

A document may hold half of a surrogate pair. It is checked like any other, with a character that
stands in for the half, since no half is part of a name or a number. What differs is that the half
may not be printed; `half?` says whether there is one.

Key definitions: `Source.Fault`, `Source.ofBytes`, `Source.load`, `Source.half?`.
-/

namespace TunnelView.Source

/-- Why a file holds no script. -/
inductive Fault where
  | zeroInPath
  | unreadable (path : String) (refusal : Refusal)
  | notUtf8 (fault : Utf8.Fault)
  | notJson (path : String) (text : List Char) (problem : Json.Problem) (index : Nat)
  | longInteger (digits : Nat)
  | tooDeep (nest : Json.Nest)
  /-- So many halves of surrogate pairs were to be written, the first of them at an index. -/
  | halves (unit index count : Nat)
  | script (fault : Script.Fault)

/-- The wording of a fault. -/
def Fault.message : Fault → String
  | .zeroInPath => "embedded null byte"
  | .unreadable path refusal =>
    "Cannot read " ++ path ++ ": [Errno " ++ toString refusal.number ++ "] " ++ refusal.message
      ++ ": " ++ Text.quoted path
  | .notUtf8 fault => fault.message
  | .notJson path text problem index =>
    path ++ " is not valid JSON: " ++ (Json.Fault.found problem index).message text
  | .longInteger digits => (Json.Fault.longInteger digits).message []
  | .tooDeep nest => (Json.Fault.tooDeep nest).message []
  | .halves unit index count =>
    "'utf-8' codec can't encode "
      ++ (if count = 1 then "character '\\u" ++ String.ofList (Nat.toDigits 16 unit)
            ++ "' in position " ++ toString index
          else "characters in position " ++ toString index ++ "-" ++ toString (index + count - 1))
      ++ ": surrogates not allowed"
  | .script fault => fault.message

/-- Whether a fault is one that scripts are expected to have. -/
def Fault.isForeseen : Fault → Bool
  | .unreadable _ _ | .notJson _ _ _ _ => true
  | .script fault => fault.isForeseen
  | .zeroInPath | .notUtf8 _ | .longInteger _ | .tooDeep _ | .halves _ _ _ => false

/-- The script in the bytes of a file; the path is for messages only. -/
def ofBytes (path : String) (bytes : List UInt8) : Except Fault (List Script.Event) :=
  match Utf8.decode bytes with
  | .error fault => .error (.notUtf8 fault)
  | .ok text =>
    let text := Text.plainEnds text
    match Json.document text with
    | .error (.found problem index) => .error (.notJson path text problem index)
    | .error (.longInteger digits) => .error (.longInteger digits)
    | .error (.tooDeep nest) => .error (.tooDeep nest)
    | .ok (v, _) =>
      match Script.read v with
      | .error fault => .error (.script fault)
      | .ok events => .ok events

/-- The script at a path, where `contents` is what reading the file gave. -/
def load (path : String) (contents : Except Refusal (List UInt8)) :
    Except Fault (List Script.Event) :=
  if path.contains '\x00' then .error .zeroInPath
  else match contents with
    | .error refusal => .error (.unreadable path refusal)
    | .ok bytes => ofBytes path bytes

/-- The first half of a surrogate pair in the document that a file holds. -/
def half? (contents : Except Refusal (List UInt8)) : Option Nat :=
  match contents with
  | .error _ => none
  | .ok bytes =>
    match Utf8.decode bytes with
    | .error _ => none
    | .ok text =>
      match Json.document (Text.plainEnds text) with
      | .error _ => none
      | .ok (_, half?) => half?

end TunnelView.Source
