import TunnelView.Arguments
import TunnelView.Replay
import TunnelView.Script.Source
import TunnelView.Timeline

/-!
# The command line

A command line ends with an exit code, and lines for either output: `0` with a timeline, `1` with a
message about the script, `2` with a message about the arguments. What is wrong beyond that comes
out as it is (`Escape`). Half of a surrogate pair is no text: a timeline with one cannot be printed,
and in a message it is written as an escape.

Key definitions: `CommandLine.Outcome`, `CommandLine.Escape`, `CommandLine.run`.
-/

namespace TunnelView.CommandLine

/-- How a command line ends: the exit code, and the lines of both outputs. -/
structure Outcome where
  exit : Nat
  out : List String := []
  err : List String := []

/-- What is not held back. -/
inductive Escape where
  | source (fault : Source.Fault)
  | stop (stop : Stop Number)
  | beyond (number : Table.Beyond)

/-- The wording of what is not held back. -/
def Escape.message : Escape → String
  | .source fault => fault.message
  | .stop (.failure f) => f.message
  | .stop (.interrupt message) => message
  | .stop .exhausted => "The script goes on for too long"
  | .beyond number => number.wording

/-- How the command is used. -/
def usage : List String := [
  "usage: tunnelstate [-h] command ...",
  "       tunnelstate replay [-h] [--debounce-ms MS] [--fallback-ms MS] [--until-ms MS] [--debug] script",
  "",
  "Replays a JSON script of notifications and prints the committed statuses."]

/-- A note as a line of the log. -/
def logLine (n : Note Number) : String := n.level.name ++ " " ++ n.logger ++ ": " ++ n.text

/-- The log of a replay. -/
def log (events : List (Event Number)) : List String :=
  events.filterMap fun
    | .log n => some (logLine n)
    | _ => none

/-- The end of a command line on which a script cannot be replayed. -/
def refused (log : List String) (message : String) : Outcome :=
  { exit := 1, err := log ++ ["Error: " ++ message] }

/-- Replays the events of a script. -/
def replay (delays : Option Double × Option Double) (stopAt : Option Double) (debug : Bool)
    (events : List Script.Event) : Except Escape Outcome :=
  let value := fun (x : Double) => Value.number (.double x)
  let outcome := Replay.run none ⟨delays.1.map value, delays.2.map value⟩
    (.list (events.map (·.value))) (stopAt.map value)
  let err := if debug then log outcome.events else []
  match outcome.result with
  | .ok () =>
    match Timeline.render (Replay.commits outcome.events) with
    | .error number => .error (.beyond number)
    | .ok out => .ok { exit := 0, out, err }
  | .error (.failure (.report fault)) =>
    if fault.isForeseen then .ok (refused err fault.message)
    else .error (.stop (.failure (.report fault)))
  | .error stop => .error (.stop stop)

/-- A line with escapes in place of the halves of surrogate pairs. -/
def escapeHalves (line : String) : String :=
  String.ofList (line.toList.flatMap fun c =>
    match Json.half? c with
    | some unit => '\\' :: 'u' :: Nat.toDigits 16 unit
    | none => [c])

/-- The first halves of surrogate pairs in a text: one of them, its index, and how many there are. -/
def firstHalves? (text : List Char) : Option (Nat × Nat × Nat) :=
  let behind := text.dropWhile (Json.half? · |>.isNone)
  (behind.head?.bind Json.half?).map fun unit =>
    (unit, text.length - behind.length, (behind.takeWhile (Json.half? · |>.isSome)).length)

/-- Prints an outcome; if there is half of a surrogate pair in the script, characters may stand in for
such halves. -/
def print (half? : Option Nat) (outcome : Outcome) : Except Escape Outcome :=
  if half?.isNone then .ok outcome
  else match firstHalves? (['\n'].intercalate (outcome.out.map String.toList)) with
    | some (unit, index, count) => .error (.source (.halves unit index count))
    | none => .ok { outcome with err := outcome.err.map escapeHalves }

/-- The outcome for the script at a path, where `contents` is what reading the file gave. -/
def outcome (script : String) (contents : Except Refusal (List UInt8))
    (delays : Option Double × Option Double) (stopAt : Option Double) (debug : Bool) :
    Except Escape Outcome :=
  match Source.load script contents with
  | .ok events => replay delays stopAt debug events
  | .error fault =>
    if fault.isForeseen then .ok (refused [] fault.message) else .error (.source fault)

/-- Answers a request, where `contents` is what reading a path gives. -/
def answer (contents : String → Except Refusal (List UInt8)) : Request → Except Escape Outcome
  | .help => .ok { exit := 0, out := usage }
  | .replay script delays stopAt debug => do
    let ended ← outcome script (contents script) delays stopAt debug
    print (Source.half? (contents script)) ended

/-- Runs a command line. -/
def run (contents : String → Except Refusal (List UInt8)) (arguments : List String) :
    Except Escape Outcome :=
  match Arguments.read arguments with
  | .error fault => .ok { exit := 2, err := ["error: " ++ fault.message] }
  | .ok request => answer contents request

end TunnelView.CommandLine
