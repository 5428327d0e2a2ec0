import TunnelView.Report
import TunnelView.Topic.Shapes

/-!
# What goes wrong

A failure is kept as its cause; the wording is in `Failure.message`. What stops a run is a failure,
which guards hold back, or an interrupt, which nothing holds back. Running out of fuel is a stop of
its own, so that it is never taken for an answer.

Key definitions: `Command`, `Setting`, `Misuse`, `Failure`, `Failure.message`, `Stop`.
-/

namespace TunnelView

/-- What a user can ask the service for. -/
inductive Command where
  | connect
  | reconnect
  | disconnect
deriving DecidableEq, Repr

/-- The name of a command. -/
def Command.name : Command → String
  | .connect => "connect"
  | .reconnect => "reconnect"
  | .disconnect => "disconnect"

/-- The two delays that can be set. -/
inductive Setting where
  | window
  | patience
deriving DecidableEq, Repr

/-- The name under which a delay is given. -/
def Setting.name : Setting → String
  | .window => "debounce_delay_ms"
  | .patience => "fallback_timeout_ms"

/-- The name of a delay in a configuration. -/
def Setting.constant : Setting → String
  | .window => "DEBOUNCE_DELAY_MS"
  | .patience => "FALLBACK_TIMEOUT_MS"

/-- One side of a comparison: a time, or something of a kind that is none. -/
inductive Operand (τ : Type) where
  | time (t : τ)
  | other (kind : String)

/-- What was done with a value of a kind that does not allow it. -/
inductive Misuse (τ : Type) where
  | comparing (sign : String) (left right : Operand τ)
  | counting (kind : String)
  | iterating (kind : String)
  /-- Looking for a field of a value that has none. -/
  | fieldOf (kind : String)

/-- The name of the kind of an operand. -/
def Operand.kind : Operand Number → String
  | .time t => (Value.number t).kind
  | .other kind => kind

/-- The wording of a misuse. -/
def Misuse.message : Misuse Number → String
  | .comparing sign left right =>
    "'" ++ sign ++ "' not supported between instances of '" ++ left.kind ++ "' and '" ++ right.kind
      ++ "'"
  | .counting kind => "'" ++ kind ++ "' object cannot be interpreted as an integer"
  | .iterating kind => "'" ++ kind ++ "' object is not iterable"
  | .fieldOf "list" => "list indices must be integers or slices, not str"
  | .fieldOf "str" => "string indices must be integers, not 'str'"
  | .fieldOf kind => "'" ++ kind ++ "' object is not subscriptable"

/-- Why something could not be done. Times are of type `τ`. -/
inductive Failure (τ : Type) where
  /-- A report that cannot be read. -/
  | report (fault : Report.Fault)
  /-- An expectation of something other than the two assumptions. -/
  | expectation (kind : Value)
  /-- A delay that is not positive. -/
  | delay (setting : Setting) (value : τ)
  /-- The truth value false given as a delay. -/
  | falseDelay (setting : Setting)
  /-- A configuration without one of the delays. -/
  | noSetting (setting : Setting)
  /-- A step back in time. -/
  | backwards (delta : τ)
  /-- Timers that go on after as many firings. -/
  | stillPending (firings : Int)
  /-- A command that could not be sent. -/
  | command (c : Command) (cause : Failure τ)
  /-- A field that is not there. -/
  | noField (key : String)
  /-- A place beyond the ends of a list. -/
  | noPlace
  /-- A topic, listener or message that is refused. -/
  | topic (refusal : Topic.Refusal)
  /-- A listener that was handed a field that it does not take. -/
  | unexpected (listener : Listener) (field : String)
  /-- A value that is used as it cannot be. -/
  | misuse (m : Misuse τ)
  /-- A failure of the host's own code. -/
  | foreign (kind message : String)

/-- The wording of a failure. -/
def Failure.message : Failure Number → String
  | .report fault => fault.message
  | .expectation kind => kind.worded ("Unknown expected status '" ++ kind.display ++ "'")
  | .delay setting value => value.worded (setting.name ++ " must be > 0, got " ++ value.text)
  | .falseDelay setting =>
    setting.name ++ " must be > 0, got " ++ (Value.bool false).literal
  | .noSetting setting => "type object 'Config' has no attribute '" ++ setting.constant ++ "'"
  | .backwards delta => delta.worded ("delta_ms must be >= 0, got " ++ delta.text)
  | .stillPending firings => (Number.int firings).worded
    ("Timers still pending after firing " ++ toString firings ++ " of them")
  | .command c cause => "Command '" ++ c.name ++ "' failed: " ++ cause.message
  | .noField key => Text.quoted key
  | .noPlace => "list index out of range"
  | .topic refusal => refusal.message
  | .unexpected listener field =>
    listener.name ++ "() got an unexpected keyword argument '" ++ field ++ "'"
  | .misuse m => m.message
  | .foreign _ message => message

/-- What ends a run before its time. -/
inductive Stop (τ : Type) where
  | failure (f : Failure τ)
  | interrupt (message : String)
  | exhausted

end TunnelView
