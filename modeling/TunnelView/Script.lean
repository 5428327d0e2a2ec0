import TunnelView.Note
import TunnelView.Script.Order

/-!
# Scripts

A script is a list of events. Each has a time under `at_ms`, and exactly one of three actions: a
report, an assumption, or a reset. Reading a script checks the events one by one and puts them in
the order of their times; events of one time stay in the order in which they stand. The undefined
time is before and after nothing, so a script with such a time has no order of its own, and its
events end up as merging runs leaves them.

Key definitions: `Script.Event`, `Script.Fault`, `Script.readEvent`, `Script.arrange`,
`Script.read`.
-/

namespace TunnelView.Script

/-- An event that was checked: its time, and its fields as they came. -/
structure Event where
  time : Number
  fields : List (String × Value)

/-- The keys of the three actions. -/
def actionKeys : List String := ["status", "expect", "reset"]

/-- What is wrong with an event. -/
inductive Problem where
  | notAnObject (kind : String)
  | noTime
  | actions (keys : List String)
  | expectation (kind : Value)
  /-- The expectation was to be shown, and has no text. -/
  | noText

/-- Why a value is not a script: it is no list, or the event of an index is wrong. -/
inductive Fault where
  | notAList
  | event (index : Nat) (problem : Problem)

/-- The wording of a problem, behind the event's name. -/
def Problem.message : Problem → String
  | .notAnObject kind => "must be an object, got " ++ kind
  | .noTime => "needs a non-negative numeric 'at_ms'"
  | .actions keys =>
    "needs exactly one of " ++ ", ".intercalate actionKeys ++ "; got "
      ++ (if keys.isEmpty then "none" else (Value.list (keys.map .text)).literal)
  | .expectation kind => "has unknown expectation " ++ kind.literal
  | .noText => Number.noText

/-- Whether a fault is one that scripts are expected to have. -/
def Fault.isForeseen : Fault → Bool
  | .event _ .noText => false
  | _ => true

/-- The wording of a fault. -/
def Fault.message : Fault → String
  | .notAList => "Replay script must be a JSON list of events"
  | .event _ .noText => Problem.noText.message
  | .event index problem => "Event " ++ toString index ++ " " ++ problem.message

/-- A time: any number but those below zero. -/
def readTime : Value → Option Number
  | .number n => if n < .int 0 then none else some n
  | _ => none

/-- The keys of the actions that an event has. -/
def actionsOf (fields : List (String × Value)) : List String :=
  actionKeys.filter fun key => fields.any (·.1 == key)

/-- Checks one event. -/
def readEvent : Value → Except Problem Event
  | .object fields =>
    match readTime (Value.get fields "at_ms") with
    | none => .error .noTime
    | some time =>
      let actions := actionsOf fields
      if actions.length ≠ 1 then .error (.actions actions)
      else match Value.find? fields "expect" with
        | none => .ok { time, fields }
        | some kind =>
          match Assumption.ofValue? kind with
          | none => .error (if kind.hasText then .expectation kind else .noText)
          | some _ => .ok { time, fields }
  | v => .error (.notAnObject v.kind)

/-- Checks events, of which the first has the index `index`. -/
def readEvents (index : Nat) : List Value → Except Fault (List Event)
  | [] => .ok []
  | v :: rest =>
    match readEvent v with
    | .error problem => .error (.event index problem)
    | .ok event => (readEvents (index + 1) rest).map (event :: ·)

/-- Whether an event is before another. -/
def before (a b : Event) : Bool := a.time < b.time

/-- Whether an event has a time that stands somewhere. -/
def Event.isPlaced (e : Event) : Bool := e.time ≤ e.time

/-- Events in the order of their times, equal ones as they stand. -/
def arrange (events : List Event) : List Event :=
  if events.all Event.isPlaced then events.mergeSort fun a b => !before b a
  else Order.sort before events

/-- The events of a script in the order of their times. -/
def read : Value → Except Fault (List Event)
  | .list items => (readEvents 0 items).map arrange
  | _ => .error .notAList

/-- An event as it came. -/
def Event.value (e : Event) : Value := .object e.fields

end TunnelView.Script
