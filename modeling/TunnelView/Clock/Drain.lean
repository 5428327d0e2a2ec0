import TunnelView.Act
import TunnelView.Clock

/-!
# Moving time

A world with a clock moves in time by firing what falls due, one call after another, each at its own
deadline. What a call does is a parameter, `fire`; it may arm and let go of calls and move time
itself. Going to a time fires what is due by it and needs fuel, since calls may arm further calls.
Running until idle has a limit of its own and fails when it is used up, even if nothing is left
then.

Key definitions: `Timed`, `drain`, `advanceTo`, `advance`, `runUntilIdle`.
-/

namespace TunnelView

/-- A world with a clock. -/
structure Timed (C ω : Type) where
  clock : C
  rest : ω

namespace Timed

variable {C ω τ κ : Type} [Timekeeper C τ κ]

/-- What a firing does. -/
abbrev Fire (C ω τ κ : Type) := Timer τ κ → Act (Timed C ω) τ Unit

/-- The time it is. -/
def now : Act (Timed C ω) τ τ := fun w => (.ok (Timekeeper.now w.clock), w)

/-- Changes the clock. -/
def onClock (f : C → C) : Act (Timed C ω) τ Unit := .change fun w => { w with clock := f w.clock }

/-- Takes the next call that falls due by the limit. -/
def popDue (limit : Option τ) : Act (Timed C ω) τ (Option (Timer τ κ)) := fun w =>
  let (t?, clock) := Timekeeper.popDue limit w.clock
  (.ok t?, { w with clock })

/-- Fires what falls due by the limit, with fuel for as many firings and the look that ends them. -/
def drain (fire : Fire C ω τ κ) (limit : Option τ) : Nat → Act (Timed C ω) τ Unit
  | 0 => .stop .exhausted
  | fuel + 1 => do
    match ← popDue limit with
    | none => pure ()
    | some t =>
      fire t
      drain fire limit fuel

/-- Goes to a time, never back, and fires what falls due on the way. -/
def advanceTo (fire : Fire C ω τ κ) (fuel : Nat) (time : τ) : Act (Timed C ω) τ Unit := do
  drain fire (some time) fuel
  onClock (Timekeeper.moveTo time)

/-- Goes to something that is no time, of the kind given, and fails. Where nothing is given there is
no limit, so all that is pending is fired first. -/
def advanceNowhere (fire : Fire C ω τ κ) (fuel : Nat) (kind? : Option String) :
    Act (Timed C ω) τ Unit := do
  match kind?, Timekeeper.first? (← Act.world).clock with
  | none, _ =>
    drain fire none fuel
    .fail (.misuse (.comparing ">" (.other Value.null.kind) (.time (← now))))
  | some kind, some t => .fail (.misuse (.comparing ">" (.time t.deadline) (.other kind)))
  | some kind, none => .fail (.misuse (.comparing ">" (.other kind) (.time (← now))))

/-- Goes on by a span of time, which must not be negative. -/
def advance [Zero τ] [Add τ] [LT τ] [DecidableLT τ] (fire : Fire C ω τ κ) (fuel : Nat) (delta : τ) :
    Act (Timed C ω) τ Unit := do
  if delta < 0 then .fail (.backwards delta)
  else advanceTo fire fuel ((← now) + delta)

/-- Fires until nothing is pending, at most `n` times; `most` is the limit that is reported. -/
def drainAll (fire : Fire C ω τ κ) (most : Int) : Nat → Act (Timed C ω) τ Unit
  | 0 => .fail (.stillPending most)
  | n + 1 => do
    match ← popDue none with
    | none => pure ()
    | some t =>
      fire t
      drainAll fire most n

/-- Fires until nothing is pending. A limit below zero counts as zero. -/
def runUntilIdle (fire : Fire C ω τ κ) (most : Int) : Act (Timed C ω) τ Unit :=
  drainAll fire most most.toNat

end Timed

/-- The firings that running until idle allows, unless told otherwise. -/
def standardFirings : Int := 10000

end TunnelView
