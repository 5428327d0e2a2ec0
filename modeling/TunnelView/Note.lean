import TunnelView.Failure

/-!
# Notes for the log, and events

Whatever the client does leaves a note. A note keeps what happened; its level and wording are
functions of it. Events are what a host can observe: notes, statuses shown, commands sent.

Key definitions: `Assumption`, `Note`, `Note.level`, `Note.text`, `Event`.
-/

namespace TunnelView

/-- What the client can assume that the service will do next. -/
inductive Assumption where
  | connecting
  | disconnecting
deriving DecidableEq, Repr

namespace Assumption

/-- The name of an assumption. -/
def name : Assumption → String
  | .connecting => "connecting"
  | .disconnecting => "disconnecting"

/-- The assumption that a value names. -/
def ofValue? : Value → Option Assumption
  | .text s => [Assumption.connecting, .disconnecting].find? (·.name == s)
  | _ => none

/-- The status that is shown on an assumption. -/
def status : Assumption → Status
  | .connecting => .bare .connecting
  | .disconnecting => .bare (.disconnecting .nothing)

end Assumption

/-- What happened. Times are of type `τ`. -/
inductive Note (τ : Type) where
  | commit (previous next : Status)
  | debouncing (s : Status)
  | confirmed (s : Status)
  | stored (s : Status)
  | expecting (a : Assumption) (fallback : Option Status) (patience : τ)
  | closedTo (a : Assumption)
  | reverting (s : Status)
  | dropped (fault : Report.Fault)
  | serviceLost
  | refused (c : Command) (s : Status)
  | failed (message : String) (cause : Failure τ)
  | cleanup (name : String) (cause : Failure τ)
  | replayed (events commits : Nat)

/-- How much a note matters. -/
inductive Level where
  | debug
  | info
  | warning
  | error
deriving DecidableEq, Repr

/-- The name of a level. -/
def Level.name : Level → String
  | .debug => "DEBUG"
  | .info => "INFO"
  | .warning => "WARNING"
  | .error => "ERROR"

namespace Note

/-- The level of a note. -/
def level {τ : Type} : Note τ → Level
  | .serviceLost => .info
  | .dropped _ => .warning
  | .failed _ _ => .error
  | _ => .debug

/-- The failure that a note reports as an error. -/
def cause? {τ : Type} : Note τ → Option (Failure τ)
  | .failed _ cause => some cause
  | _ => none

/-- The log that a note goes to. -/
def logger {τ : Type} : Note τ → String
  | .replayed _ _ => "tunnelstate.replay"
  | _ => "tunnelstate"

/-- A name that begins a sentence. -/
def capitalised : Command → String
  | .connect => "Connect"
  | .reconnect => "Reconnect"
  | .disconnect => "Disconnect"

/-- The wording of a note. -/
def text : Note Number → String
  | .commit previous next => "Status commit: " ++ previous.text ++ " → " ++ next.text
  | .debouncing s => "Debouncing status notification " ++ s.text
  | .confirmed s => "Assumed status confirmed by " ++ s.text
  | .stored s => "Status " ++ s.text ++ " stored as fallback"
  | .expecting a fallback patience =>
    "Expecting " ++ a.name ++ "; fallback " ++ (fallback.map Status.text).getD "None"
      ++ " armed for " ++ patience.wholeDigits ++ " ms"
  | .closedTo a => "Ignoring expected " ++ a.name ++ " on closed reconciler"
  | .reverting s => "Assumed status not reached; reverting to " ++ s.text
  | .dropped fault => "Dropping undecodable status notification: " ++ fault.message
  | .serviceLost => "Lost connection to tunnel service"
  | .refused c s => capitalised c ++ " not allowed in state " ++ s.text
  | .failed message _ => message
  | .cleanup name cause => "Error during " ++ name ++ ": " ++ cause.message
  | .replayed events commits =>
    "Replayed " ++ toString events ++ " events into " ++ toString commits ++ " commits"

end Note

/-- What a host can observe. -/
inductive Event (τ : Type) where
  | commit (time : τ) (s : Status)
  | command (time : τ) (c : Command)
  | log (note : Note τ)

end TunnelView
