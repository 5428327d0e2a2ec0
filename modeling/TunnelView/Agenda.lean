import TunnelView.Clock.Drain
import TunnelView.Slot

/-!
# Agendas: items on one clock

An agenda has a clock, some slots on it, and plain timers that are known by a name. Items arm and
let go of calls and move the clock; a call carries items of its own, which run when it fires. So one
item can set off a tree of further ones, and `Item.run` takes fuel: one unit for each firing inside
a firing, and as much for the firings of one movement of the clock. `fuelFor` is enough for any list
of items whose calls are not fired by hand from inside themselves, since every firing uses up one
unit of `Item.weight`.

Key definitions: `Agenda.Item`, `Agenda.Call`, `Agenda`, `Agenda.Item.run`, `Agenda.fuelFor`.
-/

namespace TunnelView.Agenda

mutual

/-- Something to be done on an agenda. -/
inductive Item (τ : Type) where
  /-- Puts a call on the clock. -/
  | arm (call : Call τ)
  /-- Tries to put a call on the clock after a delay of a kind that is no number. -/
  | misarm (slot : Option Int) (kind : String)
  /-- Lets go of the newest plain timer of a name. -/
  | dropTimer (name : String)
  /-- Empties a slot. -/
  | cancel (slot : Int)
  | advance (delta : τ)
  | advanceTo (time : τ)
  /-- Moves on to something of a kind that is no time, or to nothing. -/
  | advanceNowhere (kind? : Option String)
  | idle (most : Int)
  /-- Fires a call by its place among all calls, whether it was let go or not. -/
  | fire (i : Int)
  | stop (stop : Stop τ)

/-- A call: where it is held (in a slot, or as a plain timer), its name and delay, what it does when
it fires, and how many times it then puts itself on the clock again. Slots are given by their place
in the list of slots, where negative numbers count from the end. -/
inductive Call (τ : Type) where
  | mk (slot : Option Int) (name : String) (delay : τ) (items : List (Item τ)) (again : Nat)

end

/-- A call that fired: its name, the time, and which slots were pending. -/
structure Fired (τ : Type) where
  name : String
  time : τ
  pending : List Bool

end Agenda

/-- What an agenda keeps beside its clock. -/
structure Agenda (τ : Type) where
  slots : List Slot
  /-- The serial numbers of plain timers, the newest first. -/
  timers : List (String × Nat) := []
  /-- What fired, the newest first. -/
  fired : List (Agenda.Fired τ) := []

namespace Agenda

variable {C τ : Type} [Timekeeper C τ (Call τ)] [Zero τ] [Add τ] [LT τ] [DecidableLT τ]

/-- A run on an agenda. -/
abbrev Run (C τ : Type) := Act (Timed C (Agenda τ)) τ

/-- Which slots are pending. -/
def pending (a : Agenda τ) : List Bool := a.slots.map Slot.pending

/-- A slot with its number. -/
def slot? (a : Agenda τ) (i : Int) : Option (Nat × Slot) := do
  let i ← place? a.slots.length i
  let slot ← a.slots[i]?
  return (i, slot)

/-- Changes a slot and the clock together. -/
def onSlot (i : Int) (f : Slot → C → Slot × C) : Run C τ Unit := do
  match slot? (← Act.world).rest i with
  | none => .fail .noPlace
  | some (i, slot) => .change fun w =>
    let (slot, clock) := f slot w.clock
    ⟨clock, { w.rest with slots := w.rest.slots.set i slot }⟩

/-- Puts a call on the clock: into its slot, or as a plain timer under its name. -/
def armCall (call : Call τ) : Run C τ Unit :=
  match call with
  | .mk none name delay _ _ => .change fun w =>
    let (serial, clock) := Timekeeper.arm delay call w.clock
    ⟨clock, { w.rest with timers := (name, serial) :: w.rest.timers }⟩
  | .mk (some i) _ delay _ _ => onSlot i (Slot.schedule delay call)

/-- Lets go of the newest plain timer of a name. -/
def dropTimer (name : String) : Run C τ Unit := do
  match (← Act.world).rest.timers.find? (·.1 == name) with
  | none => .fail (.noField name)
  | some (_, serial) => Timed.onClock (Timekeeper.disarm serial)

/-- Empties a slot. -/
def cancel (i : Int) : Run C τ Unit := onSlot i Slot.cancel

/-- Fails to put a call on the clock. What the slot held is gone by then, and a generation has
begun for the call. -/
def misarm (slot : Option Int) (kind : String) : Run C τ Unit := do
  match slot with
  | none => pure ()
  | some i =>
    cancel i
    -- the generation of the call has begun by the time that its delay is looked at
    cancel i
  .fail (.misuse (.comparing ">" (.other "float") (.other kind)))

/-- Whether a firing counts; if it is a slot's, that slot is emptied. -/
def claim (serial : Nat) : Call τ → Run C τ Bool
  | .mk none _ _ _ _ => pure true
  | .mk (some i) _ _ _ _ => fun w =>
    match slot? w.rest i with
    | none => (.ok false, w)
    | some (i, slot) =>
      match slot.claim? serial with
      | none => (.ok false, w)
      | some slot => (.ok true, { w with rest.slots := w.rest.slots.set i slot })

/-- Runs items in order. -/
def runAll (run : Item τ → Run C τ Unit) : List (Item τ) → Run C τ Unit
  | [] => pure ()
  | item :: rest => do
    run item
    runAll run rest

/-- What a firing does, where `run` runs an item: it is recorded, the call's items run, and the call
goes on the clock again if it has times left. -/
def ring (run : Item τ → Run C τ Unit) (t : Timer τ (Call τ)) : Run C τ Unit := do
  if ← claim t.serial t.call then
    let .mk slot name delay items again := t.call
    .change fun w => { w with rest.fired :=
      ⟨name, Timekeeper.now w.clock, w.rest.pending⟩ :: w.rest.fired }
    runAll run items
    match again with
    | 0 => pure ()
    | again + 1 => run (.arm (.mk slot name delay items again))

/-- Runs one item, where `fire` says what a firing does. -/
def step (fire : Timed.Fire C (Agenda τ) τ (Call τ)) (fuel : Nat) : Item τ → Run C τ Unit
  | .arm call => armCall call
  | .misarm slot kind => misarm slot kind
  | .dropTimer name => dropTimer name
  | .cancel slot => cancel slot
  | .advance delta => Timed.advance fire fuel delta
  | .advanceTo time => Timed.advanceTo fire fuel time
  | .advanceNowhere kind? => Timed.advanceNowhere fire fuel kind?
  | .idle most => Timed.runUntilIdle fire most
  | .fire i => do
    match Timekeeper.kept? i (← Act.world).clock with
    | none => .fail .noPlace
    | some t => fire t
  | .stop stop => .stop stop

/-- Runs one item; firings inside firings go down in fuel. -/
def Item.run : Nat → Item τ → Run C τ Unit
  | 0, _ => .stop .exhausted
  | fuel + 1, item => step (ring (Item.run fuel)) fuel item

mutual

/-- How many firings an item can set off, and one more. -/
def Item.weight : Item τ → Nat
  | .arm call => call.weight
  | _ => 1

/-- How many firings a call can set off, and one more. -/
def Call.weight : Call τ → Nat
  | .mk _ _ _ items again => (again + 1) * (weightAll items + 1) + 1

/-- The weight of items together. -/
def weightAll : List (Item τ) → Nat
  | [] => 0
  | item :: rest => item.weight + weightAll rest

end

/-- Fuel for a list of items. -/
def fuelFor (items : List (Item τ)) : Nat := weightAll items + 2

end TunnelView.Agenda
