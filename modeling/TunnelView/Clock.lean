import TunnelView.Clock.Heap

/-!
# Clocks and the calls they hold

A clock stands still until it is moved. It holds calls, each under a serial number and a deadline,
in the order in which they fall due: by deadline, and among equal deadlines by serial number. A tape
is a clock of another kind: it only keeps what it is handed, in order, and lets go of nothing.

A deadline may be undefined, and then it is before and after nothing. From the first such deadline
on the calls have no order of their own; which falls due first is then read off a heap of all
deadlines, where those of calls that were let go of stay until they come to the top.

What needs to defer a call works with both kinds, through `Timekeeper`.

Key definitions: `Timer`, `Clock`, `Clock.arm`, `Clock.popDue`, `Tape`, `Timekeeper`.
-/

namespace TunnelView

/-- A call that waits for its deadline. -/
structure Timer (τ κ : Type) where
  deadline : τ
  serial : Nat
  call : κ

/-- The place of a call in the order of a clock. -/
structure Due (τ : Type) where
  deadline : τ
  serial : Nat

/-- A clock that moves only when told to. -/
structure Clock (τ κ : Type) where
  now : τ
  timers : List (Timer τ κ) := []
  /-- The serial number of the next call. -/
  next : Nat := 0
  /-- Whether every deadline so far has its place among the times. -/
  ordered : Bool := true
  /-- The deadlines as a heap. -/
  heap : Array (Due τ) := #[]

/-- The later of two times; the first if neither is later. -/
def later {τ : Type} [LT τ] [DecidableLT τ] (a b : τ) : τ := if a < b then b else a

/-- A delay, or no delay if it is negative. -/
def delayed {τ : Type} [Zero τ] [LT τ] [DecidableLT τ] (delay : τ) : τ :=
  if delay < 0 then 0 else delay

/-- Whether a place is before another: by deadline, and of equal ones by serial number. -/
def Due.before {τ : Type} [LT τ] [DecidableLT τ] [LE τ] [DecidableLE τ] (a b : Due τ) : Bool :=
  if a.deadline ≤ b.deadline ∧ b.deadline ≤ a.deadline then a.serial < b.serial
  else a.deadline < b.deadline

namespace Clock

variable {τ κ : Type}

/-- How many calls are still to come. -/
def pending (c : Clock τ κ) : Nat := c.timers.length

/-- Lets go of a call that has not fallen due. -/
def disarm (serial : Nat) (c : Clock τ κ) : Clock τ κ :=
  { c with timers := c.timers.filter (·.serial != serial) }

/-- The call of a serial number, if it is still to come. -/
def timer? (serial : Nat) (c : Clock τ κ) : Option (Timer τ κ) :=
  c.timers.find? (·.serial == serial)

/-- The call that falls due first. -/
def first? (c : Clock τ κ) : Option (Timer τ κ) :=
  if c.ordered then c.timers.head? else c.heap[0]?.bind fun due => c.timer? due.serial

variable [LT τ] [DecidableLT τ] [LE τ] [DecidableLE τ]

/-- Puts a timer behind all that are due before or with it. -/
def insert (t : Timer τ κ) : List (Timer τ κ) → List (Timer τ κ)
  | [] => [t]
  | u :: rest => if t.deadline < u.deadline then t :: u :: rest else u :: insert t rest

/-- Takes on a call that falls due after a delay. -/
def arm [Zero τ] [Add τ] (delay : τ) (call : κ) (c : Clock τ κ) : Nat × Clock τ κ :=
  let deadline := c.now + delayed delay
  (c.next,
    { c with
      timers := insert ⟨deadline, c.next, call⟩ c.timers
      next := c.next + 1
      ordered := c.ordered && deadline ≤ deadline
      heap := Heap.push Due.before ⟨deadline, c.next⟩ c.heap })

/-- Takes the tops off a heap that are no longer wanted; each try takes one. -/
def dropTops (wanted : Nat → Bool) : Nat → Array (Due τ) → Array (Due τ)
  | 0, heap => heap
  | tries + 1, heap =>
    match heap[0]? with
    | none => heap
    | some due =>
      if wanted due.serial then heap else dropTops wanted tries (Heap.pop Due.before heap)

/-- The clock without the tops of its heap whose calls were let go of. -/
def tidied (c : Clock τ κ) : Clock τ κ :=
  { c with heap := dropTops (fun serial => (c.timer? serial).isSome) c.heap.size c.heap }

/-- The clock at the firing of the first call. -/
def fired (t : Timer τ κ) (c : Clock τ κ) : Clock τ κ :=
  { c with
    now := later c.now t.deadline
    timers := c.timers.eraseP (·.serial == t.serial)
    heap := Heap.pop Due.before c.heap }

/-- The first call, unless its deadline is past the limit; the clock goes to the deadline. -/
def popDue (limit : Option τ) (c : Clock τ κ) : Option (Timer τ κ) × Clock τ κ :=
  let c := c.tidied
  match c.first? with
  | none => (none, c)
  | some t =>
    if limit.any fun limit => limit < t.deadline then (none, c) else (some t, c.fired t)

/-- Moves on to a time, never back. -/
def moveTo (time : τ) (c : Clock τ κ) : Clock τ κ := { c with now := later c.now time }

end Clock

/-- A place in a list of so many items: negative numbers count from the end. -/
def place? (length : Nat) (i : Int) : Option Nat :=
  let i := if i < 0 then i + length else i
  if 0 ≤ i ∧ i < length then some i.toNat else none

/-- The calls that were handed over, the newest first, at a time that stands. -/
structure Tape (τ κ : Type) where
  now : τ
  calls : List κ := []

/-- What can take on calls and let them go. -/
class Timekeeper (C : Type) (τ κ : outParam Type) where
  now : C → τ
  arm : τ → κ → C → Nat × C
  disarm : Nat → C → C
  /-- The next call that falls due. -/
  first? : C → Option (Timer τ κ)
  /-- Takes the next call that falls due by the limit, if there is one. -/
  popDue : Option τ → C → Option (Timer τ κ) × C
  moveTo : τ → C → C
  /-- The call at a place among all that were handed over, if they are kept for good. -/
  kept? : Int → C → Option (Timer τ κ)

instance {τ κ : Type} [Zero τ] [Add τ] [LT τ] [DecidableLT τ] [LE τ] [DecidableLE τ] :
    Timekeeper (Clock τ κ) τ κ where
  now c := c.now
  arm := Clock.arm
  disarm := Clock.disarm
  first? c := c.tidied.first?
  popDue := Clock.popDue
  moveTo := Clock.moveTo
  kept? _ _ := none

instance {τ κ : Type} : Timekeeper (Tape τ κ) τ κ where
  now t := t.now
  arm _ call t := (t.calls.length, { t with calls := call :: t.calls })
  disarm _ t := t
  first? _ := none
  popDue _ t := (none, t)
  moveTo _ t := t
  kept? i t := do
    let i ← place? t.calls.length i
    let call ← t.calls.reverse[i]?
    return ⟨t.now, i, call⟩

end TunnelView
