import TunnelView.Clock.Drain
import TunnelView.Slot

/-!
# The view: one status out of many reports

The service reports what the tunnel is doing, possibly in bursts; the user asks for changes and
expects to see them at once. The view holds the one status on show.

- A report within the quiet window of the last one that was acted on is put off by a window, and of
  those put off only the newest is acted on.
- An assumption is shown at once, and what it replaced is kept as the fallback. Unless a report
  confirms the assumption within the patience, the fallback is shown again. A report that does not
  confirm it becomes the fallback.
- A disconnect that the service makes in order to connect anew is shown as an assumption that it
  connects.

Whoever is shown a status may call back into the view, close it, move time, or fail, before
`present` comes back. So the order of the steps of each operation matters, and it is kept as it
stands.

Key definitions: `Delays`, `View`, `World`, `View.receive`, `View.assume`, `View.resetFallback`,
`View.close`, `View.fire`.
-/

namespace TunnelView

/-- The two delays of a view: the quiet window, and how long an assumption is held. -/
structure Delays (τ : Type) where
  window : τ
  patience : τ

/-- Delays of which each may be missing. -/
structure GivenDelays (τ : Type) where
  window : Option τ := none
  patience : Option τ := none

/-- The delays unless others are given. -/
def Delays.standard : Delays Number := ⟨.int 150, .int 3000⟩

/-- One delay: what is given, or else what the configuration has. -/
def Delays.choose {τ α : Type} (setting : Setting) (given : Option α) (config : Option α) :
    Except (Failure τ) α :=
  match given.or config with
  | some value => .ok value
  | none => .error (.noSetting setting)

/-- A delay, if it is positive. -/
def Delays.check {τ : Type} [Zero τ] [LE τ] [DecidableLE τ] (setting : Setting) (value : τ) :
    Except (Failure τ) τ :=
  if value ≤ 0 then .error (.delay setting value) else .ok value

/-- The delay that a value stands for, if it is a positive number. -/
def Delays.readOne (setting : Setting) : Value → Except (Failure Number) Number
  | .bool false => .error (.falseDelay setting)
  | v =>
    match v.asNumber? with
    | none => .error (.misuse (.comparing "<=" (.other v.kind) (.other "int")))
    | some n => check setting n

/-- The delays of a view: what is given, or else those of the configuration or the standard ones.
Both must be there before either is checked. -/
def Delays.read (config : Option (GivenDelays Value)) (given : GivenDelays Value) :
    Except (Failure Number) (Delays Number) := do
  let config := config.getD
    ⟨some (.number Delays.standard.window), some (.number Delays.standard.patience)⟩
  let window ← choose .window given.window config.window
  let patience ← choose .patience given.patience config.patience
  return ⟨← readOne .window window, ← readOne .patience patience⟩

/-- The calls that a view puts on the clock. -/
inductive Alarm where
  /-- Acts on a report that was put off. -/
  | deferred (s : Status)
  /-- Gives an assumption up. -/
  | giveUp

/-- A view. -/
structure View (τ : Type) where
  delays : Delays τ
  /-- When a report was last acted on; at first, when the view was made. -/
  lastActed : τ
  status : Status := .bare .disconnected
  fallback : Option Status := none
  closed : Bool := false
  /-- Holds the report that was put off. -/
  deferral : Slot := {}
  /-- Holds the end of the assumption on show. -/
  timeout : Slot := {}

/-- Around a view: what its host and its owner keep, and the events, the newest first. -/
structure Scene (τ ο : Type) where
  view : View τ
  owner : ο
  events : List (Event τ) := []

/-- A view on a clock. -/
abbrev World (τ ο : Type) := Timed (Clock τ Alarm) (Scene τ ο)

/-- A run on a view. -/
abbrev Run (τ ο : Type) := Act (World τ ο) τ

/-- The code outside that a view and its connection call: it is shown statuses, and sends commands.
-/
structure Outside (τ ο : Type) where
  present : Status → Run τ ο Unit
  send : Command → Run τ ο Unit

/-- Records an event. -/
def World.record {τ ο : Type} (e : Event τ) (w : World τ ο) : World τ ο :=
  { w with rest.events := e :: w.rest.events }

/-- Records a note. -/
def note {τ ο : Type} (n : Note τ) : Run τ ο Unit := .change (·.record (.log n))

/-- Records the notes that a guard leaves, and goes on with the outcome behind it. -/
def guarded {τ ο α : Type} (settle : Except (Stop τ) α → List (Note τ) × Except (Stop τ) α)
    (m : Run τ ο α) : Run τ ο α := fun w =>
  let (outcome, w) := m w
  let (notes, outcome) := settle outcome
  (outcome, notes.foldl (fun w n => w.record (.log n)) w)

namespace View

variable {τ ο : Type} [Zero τ] [Add τ] [Sub τ] [LT τ] [DecidableLT τ]
  [LE τ] [DecidableLE τ]

/-- A view of a service about which nothing is known yet. -/
def opened (delays : Delays τ) (now : τ) : View τ := { delays, lastActed := now }

/-- Whether an assumption is running out. -/
def timing (v : View τ) : Bool := v.timeout.pending

/-- Whether a report is put off. -/
def deferring (v : View τ) : Bool := v.deferral.pending

/-- The view as it is. -/
def current : Run τ ο (View τ) := fun w => (.ok w.rest.view, w)

/-- Changes the view. -/
def change (f : View τ → View τ) : Run τ ο Unit :=
  .change fun w => { w with rest.view := f w.rest.view }

/-- Puts an alarm into the deferral slot. -/
def putOff (alarm : Alarm) (delay : τ) : Run τ ο Unit := .change fun w =>
  let (slot, clock) := w.rest.view.deferral.schedule delay alarm w.clock
  { w with clock, rest.view.deferral := slot }

/-- Puts an alarm into the timeout slot. -/
def startTimeout (alarm : Alarm) (delay : τ) : Run τ ο Unit := .change fun w =>
  let (slot, clock) := w.rest.view.timeout.schedule delay alarm w.clock
  { w with clock, rest.view.timeout := slot }

/-- Empties the deferral slot. -/
def cancelDeferral : Run τ ο Unit := .change fun w =>
  let (slot, clock) := w.rest.view.deferral.cancel w.clock
  { w with clock, rest.view.deferral := slot }

/-- Empties the timeout slot. -/
def cancelTimeout : Run τ ο Unit := .change fun w =>
  let (slot, clock) := w.rest.view.timeout.cancel w.clock
  { w with clock, rest.view.timeout := slot }

/-- Holds back failures of whoever is shown a status. -/
def showing : Guard := { message := "Status sink failed" }

/-- Makes a status the one on show, and shows it. -/
def commit (out : Outside τ ο) (s : Status) : Run τ ο Unit := do
  let previous := (← current).status
  change ({ · with status := s })
  note (.commit previous s)
  guarded (showing.settle ()) (out.present s)

/-- Drops the assumption on show, without a change of the status. -/
def resetFallback : Run τ ο Unit := do
  cancelTimeout
  change ({ · with fallback := none })

/-- Shows what a user action should lead to, before the service confirms it. -/
def assume (out : Outside τ ο) (a : Assumption) : Run τ ο Unit := do
  if (← current).closed then note (.closedTo a)
  else
    change fun v => { v with fallback := some v.status }
    commit out a.status
    let v ← current
    note (.expecting a v.fallback v.delays.patience)
    startTimeout .giveUp v.delays.patience

/-- The same for an assumption that is yet to be read. -/
def expect (out : Outside τ ο) (kind : Value) : Run τ ο Unit :=
  match Assumption.ofValue? kind with
  | none => .fail (.expectation kind)
  | some a => assume out a

/-- Whether a report comes too soon to act on. -/
def tooSoon (v : View τ) (now : τ) : Bool := now - v.lastActed < v.delays.window || v.deferring

/-- Whether a report settles the assumption on show. -/
def settles (v : View τ) (s : Status) : Bool := s.phase == v.status.phase || s.isError

/-- Shows a report on which nothing is assumed any more. -/
def reveal (out : Outside τ ο) (s : Status) : Run τ ο Unit := do
  if s.isReconnecting then
    assume out .connecting
    change ({ · with fallback := some s })
  else commit out s

/-- Acts on a report that is not too soon. -/
def act (out : Outside τ ο) (s : Status) : Run τ ο Unit := do
  let v ← current
  if v.fallback.isNone then reveal out s
  else if v.settles s then
    note (.confirmed s)
    resetFallback
    reveal out s
  else
    note (.stored s)
    change ({ · with fallback := some s })

/-- Takes in a report. -/
def receive (out : Outside τ ο) (s : Status) : Run τ ο Unit := do
  let v ← current
  if v.closed then pure ()
  else
    let now ← Timed.now
    if v.tooSoon now then
      note (.debouncing s)
      putOff (.deferred s) v.delays.window
    else
      change ({ · with lastActed := now })
      act out s

/-- Lets go of both alarms; whatever comes later is ignored. -/
def close : Run τ ο Unit := do
  if (← current).closed then pure ()
  else
    change ({ · with closed := true })
    cancelDeferral
    cancelTimeout
    change ({ · with fallback := none })

/-- Shows the fallback again. -/
def giveUp (out : Outside τ ο) : Run τ ο Unit := do
  let v ← current
  match v.closed, v.fallback with
  | false, some s =>
    change ({ · with fallback := none })
    note (.reverting s)
    commit out s
  | _, _ => pure ()

/-- What an alarm does when it fires. It counts only if a slot still holds it. -/
def fire (out : Outside τ ο) (t : Timer τ Alarm) : Run τ ο Unit := do
  let v ← current
  match t.call with
  | .deferred s =>
    match v.deferral.claim? t.serial with
    | none => pure ()
    | some slot =>
      change ({ · with deferral := slot })
      receive out s
  | .giveUp =>
    match v.timeout.claim? t.serial with
    | none => pure ()
    | some slot =>
      change ({ · with timeout := slot })
      giveUp out

end View
end TunnelView
