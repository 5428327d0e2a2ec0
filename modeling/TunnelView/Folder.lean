/-!
# Files in a folder

A folder holds files and further folders under names. A path is walked part by part; empty parts and
single dots stay where they are, two dots lead out again. What lies outside is taken to be empty.
Names and paths have a greatest length, counted in octets: a path that is too long is refused as a
whole, a name that is too long where it would be looked up.

Key definitions: `Node`, `Refusal`, `Node.read`, `Node.place`.
-/

namespace TunnelView

/-- A file with its bytes, or a folder with its entries. -/
inductive Node where
  | file (bytes : List UInt8)
  | folder (entries : List (String × Node))

/-- Why a path cannot be read: the number of the error and its wording. -/
structure Refusal where
  number : Nat
  message : String
deriving DecidableEq, Repr

namespace Refusal

/-- There is nothing at the path. -/
def missing : Refusal := ⟨2, "No such file or directory"⟩

/-- The path leads on from something that is no folder. -/
def notAFolder : Refusal := ⟨20, "Not a directory"⟩

/-- The path leads to a folder. -/
def aFolder : Refusal := ⟨21, "Is a directory"⟩

/-- The path, or a name in it, is too long. -/
def tooLong : Refusal := ⟨36, "File name too long"⟩

end Refusal

/-- The length of the longest name in a folder. -/
def longestName : Nat := 255

/-- The length of the longest path. -/
def longestPath : Nat := 4095

namespace Node

/-- An empty folder. -/
def empty : Node := .folder []

/-- Walks the parts of a path; `outer` are the folders around, from the nearest on. -/
def walk (outer : List Node) (here : Node) : List String → Except Refusal Node
  | [] => .ok here
  | part :: rest =>
    match here with
    | .file _ => .error .notAFolder
    | .folder entries =>
      if part = "" ∨ part = "." then walk outer here rest
      else if part = ".." then
        match outer with
        | [] => walk [] empty rest
        | parent :: outer => walk outer parent rest
      else if longestName < part.utf8ByteSize then .error .tooLong
      else match entries.find? (·.1 == part) with
        | none => .error .missing
        | some (_, node) => walk (here :: outer) node rest

/-- The bytes of the file at a path. -/
def read (here : Node) (path : String) : Except Refusal (List UInt8) :=
  if path.isEmpty then .error .missing
  else if longestPath < path.utf8ByteSize then .error .tooLong
  else
    let start := if path.startsWith "/" then empty else here
    match walk [] start (path.splitOn "/") with
    | .error refusal => .error refusal
    | .ok (.file bytes) => .ok bytes
    | .ok (.folder _) => .error .aFolder

/-- The folder with a file placed at the end of a path of names; folders on the way are made where
there are none. -/
def place (bytes : List UInt8) : List String → Node → Node
  | [], _ => .file bytes
  | name :: rest, here =>
    let entries := match here with
      | .file _ => []
      | .folder entries => entries
    let inner := ((entries.find? (·.1 == name)).map (·.2)).getD empty
    .folder (entries.filter (·.1 != name) ++ [(name, place bytes rest inner)])

end Node
end TunnelView
