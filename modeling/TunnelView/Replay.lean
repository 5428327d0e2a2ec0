import TunnelView.Session
import TunnelView.Script

/-!
# Replays

A replay runs a script on a view of its own, with a clock that starts at zero and a host that only
looks on. Before each event the clock goes to the event's time, and after the last it runs until
idle or to a given end. The replay's outcome is what was shown, and when.

A replay is a session, so its operations are a list: `Cue.ops`.

Key definitions: `Cue`, `Action.ofFields`, `Replay.eventOps`, `Replay.play`, `Replay.run`.
-/

namespace TunnelView

/-- What an event asks for, in the order in which the keys are looked for. -/
inductive Action where
  | report (v : Value)
  | assume (kind : Value)
  | reset
  | pass

/-- An action at a time. -/
structure Cue (τ : Type) where
  time : τ
  action : Action

/-- The operations of an action. -/
def Action.ops {τ : Type} : Action → List (Op τ)
  | .report v => [.notify (.raw v)]
  | .assume kind => [.expect kind]
  | .reset => [.reset]
  | .pass => []

/-- The operations of a cue. -/
def Cue.ops {τ : Type} (c : Cue τ) : List (Op τ) := .advanceTo c.time :: c.action.ops

/-- The action of an event: a report before an assumption, before a reset if it counts as true. -/
def Action.ofFields {τ : Type} (fields : List (String × Value)) : Except (Failure τ) Action :=
  match Value.find? fields "status", Value.find? fields "expect", Value.find? fields "reset" with
  | some v, _, _ => .ok (.report v)
  | none, some kind, _ => .ok (.assume kind)
  | none, none, some flag => .ok (if flag.truth then .reset else .pass)
  | none, none, none => .error (.noField "reset")

namespace Replay

/-- A host that only looks on. -/
def silent {τ : Type} : Host τ Unit := fun memory _ => (memory, {})

/-- The operations of an event that need not have been checked: the clock goes to the event's time
before its action is looked at. What cannot be done stops the replay when it is reached. -/
def eventOps : Value → List (Op Number)
  | .object fields =>
    match Value.find? fields "at_ms" with
    | none => [.stop (.failure (.noField "at_ms"))]
    | some time =>
      match time.asNumber?, Action.ofFields fields with
      | some time, .ok action => (Cue.mk time action).ops
      | _, .ok action => .goTo time :: action.ops
      | _, .error f => [.goTo time, .stop (.failure f)]
  | v => [.stop (.failure (.misuse (.fieldOf v.kind)))]

/-- The events of a script that need not have been checked: the items of a list, but of an object
its keys and of a text its characters. -/
def events? : Value → Option (List Value)
  | .list items => some items
  | .object fields => some (fields.map fun field => .text field.1)
  | .text s => some (s.toList.map fun c => .text c.toString)
  | _ => none

/-- The operations at the end: the clock goes to a given end, or runs until idle. -/
def endOps : Option Value → List (Op Number)
  | none => [.idle standardFirings]
  | some time => [.goTo time]

/-- What a replay leaves: how it ended, and all events in their order. -/
structure Outcome (τ : Type) where
  result : Except (Stop τ) Unit
  events : List (Event τ)

/-- The statuses shown, with their times. -/
def commits {τ : Type} (events : List (Event τ)) : List (τ × Status) :=
  events.filterMap fun
    | .commit time s => some (time, s)
    | _ => none

variable {τ : Type} [Zero τ] [Add τ] [Sub τ] [LT τ] [DecidableLT τ]
  [LE τ] [DecidableLE τ]

/-- Plays operations on a view of its own, closes it, and notes how much there was. -/
def play (delays : Delays τ) (ops : List (Op τ)) (events fuel : Nat) : Outcome τ :=
  let out := outside silent fuel
  let w : World τ (Client Unit) := Session.start delays 0 { memory := () }
  let (result, w) := runOps (Op.run out fuel) ops w
  let (_, w) := Op.run out fuel .close w
  let told := w.rest.events.reverse
  match result with
  | .ok () => ⟨.ok (), told ++ [.log (.replayed events (commits told).length)]⟩
  | .error stop => ⟨.error stop, told⟩

/-- Replays a script, which need not have been checked. -/
def run (config : Option (GivenDelays Value)) (given : GivenDelays Value) (script : Value)
    (until? : Option Value) : Outcome Number :=
  match Delays.read config given with
  | .error f => ⟨.error (.failure f), []⟩
  | .ok delays =>
    match events? script with
    | none => ⟨.error (.failure (.misuse (.iterating script.kind))), []⟩
    | some events =>
      let ops := events.flatMap eventOps ++ endOps until?
      play delays ops events.length (scriptFuel (τ := Number) [] ops.length)

end Replay
end TunnelView
