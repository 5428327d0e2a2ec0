import TunnelView.Topic

/-!
# The shapes of messages

All messages on a topic have the same fields. The first listener of a topic settles which; the root
has messages without fields. Later listeners must take just these fields. Topics below a topic have
its fields and perhaps more, as far as their fields are settled, so a listener hears what is sent on
topics below its own and is given the fields that it takes.

Key definitions: `Listener`, `Topic.Mismatch`, `Topic.Refusal`, `Topic.Shapes`,
`Topic.Shapes.enrol`, `Topic.Shapes.checkMessage`.
-/

namespace TunnelView

/-- Who listens: a name, the module that it is from, and the fields that it takes. -/
structure Listener where
  name : String
  home : String
  fields : List String
deriving DecidableEq, Repr

namespace Topic

/-- Why topics, listeners and messages do not fit. -/
inductive Mismatch where
  /-- A listener that takes other fields than those that are settled. -/
  | listener (l : Listener) (settled : List String)
  /-- A topic that lacks fields of one that it lies under. -/
  | inherited (t : Topic) (fields missing : List String)
  /-- A message with fields that its topic does not have. -/
  | unknown (t : Topic) (fields extra : List String)

/-- The items of a list that another lacks. -/
def without (fields others : List String) : List String := fields.filter (!others.contains ·)

/-- The wording of what does not fit between a listener and settled fields. -/
def unfitness (fields settled : List String) : String :=
  let lacking := without settled fields
  let extra := without fields settled
  if !lacking.isEmpty then
    "needs to accept " ++ toString lacking.length ++ " more args (" ++ ",".intercalate lacking
      ++ ")"
  else if settled.isEmpty then "no args allowed, has (" ++ ",".intercalate extra ++ ")"
  else
    "args (" ++ ",".intercalate extra ++ ") not allowed, should be (" ++ ",".intercalate settled
      ++ ")"

/-- The wording of a mismatch. -/
def Mismatch.message : Mismatch → String
  | .listener l settled =>
    "Listener \"" ++ l.name ++ "\" (from module \"" ++ l.home ++ "\") inadequate: "
      ++ unfitness l.fields settled
  | .inherited t fields missing =>
    "Invalid message data spec: Params [" ++ ",".intercalate fields ++ "] missing inherited ["
      ++ ",".intercalate missing ++ "] for topic \"" ++ t.text ++ "\""
  | .unknown t fields extra =>
    "Some optional args unknown in call to sendMessage('" ++ t.text ++ "', "
      ++ ",".intercalate fields ++ "): " ++ ",".intercalate extra

/-- Why a listener or a message is refused. -/
inductive Refusal where
  | name (fault : Fault)
  | mismatch (m : Mismatch)

/-- The wording of a refusal. -/
def Refusal.message : Refusal → String
  | .name fault => fault.message
  | .mismatch m => m.message

/-- The fields that are settled, topic by topic. -/
abbrev Shapes := List (Topic × List String)

namespace Shapes

/-- The fields of messages on a topic, if they are settled. -/
def fields? (t : Topic) (shapes : Shapes) : Option (List String) :=
  if t = root then some [] else (shapes.find? (·.1 == t)).map (·.2)

/-- The fields that a topic has from those that it lies under: those of the nearest one whose fields
are settled. -/
def inherited (t : Topic) (shapes : Shapes) : List String :=
  (t.path.dropLast.reverse.findSome? (fields? · shapes)).getD []

/-- Settles the fields of a topic. Topics directly below it must have them all. -/
def settle (t : Topic) (fields : List String) (shapes : Shapes) : Except Mismatch Shapes :=
  let missing := without (shapes.inherited t) fields
  if !missing.isEmpty then .error (.inherited t fields missing)
  else match shapes.find? fun (u, below) => u.parent = t && !(without fields below).isEmpty with
    | some (u, below) => .error (.inherited u below (without fields below))
    | none => .ok (shapes ++ [(t, fields)])

/-- Takes a listener on: the first one settles the fields, any other must take those. -/
def enrol (l : Listener) (t : Topic) (shapes : Shapes) : Except Mismatch Shapes :=
  match shapes.fields? t with
  | some settled =>
    if (without settled l.fields).isEmpty && (without l.fields settled).isEmpty then .ok shapes
    else .error (.listener l settled)
  | none => shapes.settle t l.fields

/-- Takes a listener on for the topic that a value names; the topic comes first. -/
def listen (l : Listener) (name : Value) (shapes : Shapes) : Except Refusal (Topic × Shapes) :=
  match ofValue name with
  | .error fault => .error (.name fault)
  | .ok t =>
    match shapes.enrol l t with
    | .error m => .error (.mismatch m)
    | .ok shapes => .ok (t, shapes)

/-- Checks the fields of a message on a topic; where none are settled any will do. -/
def checkMessage (t : Topic) (fields : List String) (shapes : Shapes) : Except Mismatch Unit :=
  match shapes.fields? t with
  | some settled =>
    let extra := without fields settled
    if extra.isEmpty then .ok () else .error (.unknown t fields extra)
  | none => .ok ()

/-- The topic that a value names, for a message with these fields. -/
def address (fields : List String) (name : Value) (shapes : Shapes) : Except Refusal Topic :=
  match ofValue name with
  | .error fault => .error (.name fault)
  | .ok t =>
    match shapes.checkMessage t fields with
    | .error m => .error (.mismatch m)
    | .ok () => .ok t

end Shapes
end Topic
end TunnelView
