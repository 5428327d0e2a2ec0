import TunnelView.Value

/-!
# Topics

A topic is a path of names with dots between them; above all of them is the root, which has a name
of its own. Names are checked one by one, and a fault shows the path up to the name that is wrong.

Key definitions: `Topic`, `Topic.ofText`, `Topic.ofValue`, `Topic.path`, `Topic.isAbove`.
-/

namespace TunnelView

/-- A topic, by its names from the outermost on. The root has none. -/
structure Topic where
  parts : List String
deriving DecidableEq, Repr

namespace Topic

/-- The topic above all others. -/
def root : Topic := ⟨[]⟩

/-- The name of the root. -/
def rootName : String := "ALL_TOPICS"

/-- The topic as a text. -/
def text (t : Topic) : String := if t.parts.isEmpty then rootName else ".".intercalate t.parts

/-- What can be wrong with a name. -/
inductive Flaw where
  | empty
  | underscore
  | reserved
  | characters
deriving DecidableEq, Repr

/-- Why something is not a topic: it is no text, or the last of these names has a flaw. -/
inductive Fault where
  | notText (v : Value)
  | name (parts : List String) (flaw : Flaw)

/-- The wording of a flaw, in the last of these names. -/
def Flaw.message (parts : List String) : Flaw → String
  | .empty => "can't contain empty string or None"
  | .underscore => "must not start with \"_\""
  | .reserved => "string \"" ++ rootName ++ "\" is reserved for root topic"
  | .characters =>
    "element #" ++ toString parts.length ++ " (\"" ++ parts.getLast?.getD ""
      ++ "\") has invalid characters"

/-- Names as a list in brackets. -/
def listing (parts : List String) : String :=
  "(" ++ ", ".intercalate (parts.map Text.quoted) ++ (if parts.length = 1 then ",)" else ")")

/-- The wording of a fault. -/
def Fault.message : Fault → String
  | .notText v => v.worded ("Topic name \"" ++ v.display ++ "\": can only join an iterable")
  | .name parts flaw => "Topic name \"" ++ listing parts ++ "\": " ++ flaw.message parts

/-- What is wrong with a name: it begins with an ASCII letter or digit or a dash, whatever follows.
-/
def flaw? (name : String) : Option Flaw :=
  match name.toList with
  | [] => some .empty
  | c :: _ =>
    if c = '_' then some .underscore
    else if name = rootName then some .reserved
    else if c.isAlphanum || c = '-' then none
    else some .characters

/-- Checks names one by one, behind those in `done`. -/
def check (done : List String) : List String → Except Fault Topic
  | [] => .ok ⟨done⟩
  | name :: rest =>
    match flaw? name with
    | some flaw => .error (.name (done ++ [name]) flaw)
    | none => check (done ++ [name]) rest

/-- The topic of a text. Below the name of the root there is nothing, but what would be above the
last name there is looked at first. -/
def ofText (s : String) : Except Fault Topic :=
  match s.splitOn "." with
  | first :: rest =>
    if first ≠ rootName then check [] (first :: rest)
    else if rest.isEmpty then .ok root
    else match check [] rest.dropLast with
      | .error fault => .error fault
      | .ok _ => .error (.name (first :: rest) .reserved)
  | [] => .ok root

/-- The topic that a value names. -/
def ofValue : Value → Except Fault Topic
  | .text s => ofText s
  | v => .error (.notText v)

/-- The topics that a topic lies under, from the root to itself. -/
def path (t : Topic) : List Topic :=
  (List.range (t.parts.length + 1)).map fun n => ⟨t.parts.take n⟩

/-- The topic that a topic lies directly under; the root lies under itself. -/
def parent (t : Topic) : Topic := ⟨t.parts.dropLast⟩

/-- Whether a topic is one of those that another lies under. -/
def isAbove (t u : Topic) : Bool := t.parts.isPrefixOf u.parts && t != u

end Topic
end TunnelView
