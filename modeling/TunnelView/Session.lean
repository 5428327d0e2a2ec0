import TunnelView.Link

/-!
# Sessions

A session drives a client by operations, and a host answers to what the client calls: each time a
status is shown or a command sent, the host may run operations of its own and then fail. What it
does is a function of its memory, so a host can be anything from silent to a script.

Hosts are called inside operations, whose calls may set off further operations: `outside` ties this
knot by depth. A host that calls back `n` times over a session needs a depth of `n + 1`; running out
of it is a stop of its own kind.

Key definitions: `Op`, `Reply`, `Host`, `outside`, `Op.run`, `Session.start`, `Session.step`,
`Reaction`, `scripted`.
-/

namespace TunnelView

/-- What can be done with a client. -/
inductive Op (τ : Type) where
  /-- Hands a report to the view. -/
  | notify (r : Report)
  /-- Assumes the outcome of an action. -/
  | expect (kind : Value)
  | reset
  /-- Closes the link and the view. -/
  | close
  /-- Closes the view alone. -/
  | closeView
  | advance (delta : τ)
  | advanceTo (time : τ)
  /-- Moves on to something of a kind that is no time, or to nothing. -/
  | advanceNowhere (kind? : Option String)
  | idle (most : Int)
  /-- Asks the policy about all three actions; an account that is not mentioned is logged in. -/
  | ask (reachable : Value) (loggedIn : Option Value)
  | command (c : Command)
  /-- Hands a report to the link. -/
  | handle (r : Report)
  /-- Sends a report to those who listen. -/
  | publish (r : Report)
  /-- Tells the link that the service is lost. -/
  | lose
  /-- Sends the loss of the service to those who listen. -/
  | publishLoss
  | logIn (flag : Value)
  | stop (s : Stop τ)

/-- Moves on to the time that a value stands for. -/
def Op.goTo (v : Value) : Op Number :=
  match v, v.asNumber? with
  | .null, _ => .advanceNowhere none
  | _, some time => .advanceTo time
  | v, none => .advanceNowhere (some v.kind)

/-- What an operation returns. -/
inductive Reply where
  | nothing
  | flag (b : Bool)
  | values (vs : List Value)

/-- What a host is called with. -/
inductive Call where
  | shown (s : Status)
  | sent (c : Command)

/-- What a host does on a call: operations in order, and then perhaps a stop. -/
structure Response (τ : Type) where
  ops : List (Op τ) := []
  ending : Option (Stop τ) := none

/-- A host with a memory. -/
abbrev Host (τ σ : Type) := σ → Call → σ × Response τ

variable {τ σ : Type} [Zero τ] [Add τ] [Sub τ] [LT τ] [DecidableLT τ]
  [LE τ] [DecidableLE τ]

/-- A run of a part that only clients with a link have. -/
def withLink (m : Link → Run τ (Client σ) Reply) : Run τ (Client σ) Reply := do
  match ← Client.link? with
  | none => return .nothing
  | some l => m l

/-- A run without a result. -/
def silently (m : Run τ (Client σ) Unit) : Run τ (Client σ) Reply := do
  m
  return .nothing

/-- The event that a call leaves. -/
def Call.event (time : τ) : Call → Event τ
  | .shown s => .commit time s
  | .sent c => .command time c

/-- Runs one operation, where `out` is the code outside; moving time takes fuel for its firings. -/
def Op.run (out : Outside τ (Client σ)) (fuel : Nat) : Op τ → Run τ (Client σ) Reply
  | .notify r => match r.read with
    | .error fault => .fail (.report fault)
    | .ok s => silently (View.receive out s)
  | .expect kind => silently (View.expect out kind)
  | .reset => silently View.resetFallback
  | .close => silently Client.close
  | .closeView => silently View.close
  | .advance delta => silently (Timed.advance (View.fire out) fuel delta)
  | .advanceTo time => silently (Timed.advanceTo (View.fire out) fuel time)
  | .advanceNowhere kind? => silently (Timed.advanceNowhere (View.fire out) fuel kind?)
  | .idle most => silently (Timed.runUntilIdle (View.fire out) most)
  | .ask reachable loggedIn => do
    let w ← Act.world
    let phase := w.rest.view.status.phase
    let loggedIn := loggedIn.getD (.bool true)
    return .values ([.connect, .reconnect, .disconnect].map fun c =>
      w.rest.owner.policy.permits c reachable loggedIn phase)
  | .command c => withLink fun l => return .flag (← Link.command out c l)
  | .handle r => withLink fun _ => return .flag (← Link.handle out r)
  | .publish r => withLink fun l => silently (l.takeIn out r)
  | .lose => withLink fun _ => silently Link.lose
  | .publishLoss => withLink fun l => do
    if l.listening then Link.lose
    return .nothing
  | .logIn flag => withLink fun _ => silently (Link.change ({ · with loggedIn := flag }))
  | .stop s => .stop s

/-- Runs operations in order, without their results. -/
def runOps (run : Op τ → Run τ (Client σ) Reply) : List (Op τ) → Run τ (Client σ) Unit
  | [] => pure ()
  | op :: rest => do
    discard (run op)
    runOps run rest

/-- What happens on a call: it is recorded, and the host responds. -/
def respond (host : Host τ σ) (run : Op τ → Run τ (Client σ) Reply) (call : Call) :
    Run τ (Client σ) Unit := do
  .change fun w => w.record (call.event w.clock.now)
  let (memory, response) := host (← Act.world).rest.owner.memory call
  .change fun w => { w with rest.owner.memory := memory }
  runOps run response.ops
  match response.ending with
  | none => pure ()
  | some s => .stop s

/-- Lets the link hear what goes out, if there is one that listens. -/
def tellLink : Run τ (Client σ) Unit := do
  match ← Client.link? with
  | none => pure ()
  | some l => l.overhear

/-- The code outside as a host makes it, down to a depth of calls inside calls. -/
def outside (host : Host τ σ) : Nat → Outside τ (Client σ)
  | 0 => ⟨fun _ => .stop .exhausted, fun _ => .stop .exhausted⟩
  | depth + 1 =>
    let answer := fun call => respond host (Op.run (outside host depth) depth) call
    ⟨fun s => do tellLink; answer (.shown s), fun c => answer (.sent c)⟩

namespace Session

/-- A session at its start. -/
def start (delays : Delays τ) (now : τ) (client : Client σ) : World τ (Client σ) where
  clock := { now }
  rest := { view := .opened delays now, owner := client }

/-- One step: how it ended, the events in their order, and the world with none left to tell. -/
def step (host : Host τ σ) (fuel : Nat) (op : Op τ) (w : World τ (Client σ)) :
    Except (Stop τ) Reply × List (Event τ) × World τ (Client σ) :=
  let (outcome, w) := op.run (outside host fuel) fuel w
  (outcome, w.rest.events.reverse, { w with rest.events := [] })

end Session

/-- What a reaction waits for: a phase on show or a command, or any of them. -/
inductive Trigger where
  | shown (phase : Option Phase)
  | sent (c : Option Command)
deriving DecidableEq, Repr

/-- Whether a call is what a trigger waits for. -/
def Trigger.fits : Trigger → Call → Bool
  | .shown phase, .shown s => phase.all (· == s.phase)
  | .sent c, .sent d => c.all (· == d)
  | _, _ => false

/-- A response that is given a number of times. -/
structure Reaction (τ : Type) where
  trigger : Trigger
  times : Nat := 1
  response : Response τ

/-- A host that follows a script: the first reaction that fits and has times left is given, and one
of its times is used up before it acts. -/
def scripted : Host τ (List (Reaction τ))
  | [], _ => ([], {})
  | r :: rest, call =>
    if r.trigger.fits call && 0 < r.times then ({ r with times := r.times - 1 } :: rest, r.response)
    else
      let (rest, response) := scripted rest call
      (r :: rest, response)

/-- Fuel for operations under a script: every response is given at most so many times, and each
operation arms at most two alarms. The constant leaves room for reports that are put off again
because a sum was rounded. -/
def scriptFuel (script : List (Reaction τ)) (ops : Nat) : Nat :=
  let responses := script.foldl (fun n r => n + r.times * (r.response.ops.length + 1)) 0
  8 * (ops + responses) + 1000

end TunnelView
