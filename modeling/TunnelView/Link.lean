import TunnelView.Policy
import TunnelView.View

/-!
# The link to the service

A link listens for reports and for the loss of the service, passes reports on to the view, and turns
user actions into an assumption followed by a command. What a user may do is up to a policy.

Reports and losses come in on two topics, and statuses may go out on a third. Who listens on a topic
hears all that is sent below it, so a link may also hear what is not meant for it (`Overhearing`):
whatever comes in where it listens for the loss of the service counts as a loss.

A client is a view with or without a link; its owner keeps the link, the policy and a memory of the
host's own.

Key definitions: `Overhearing`, `Overhearing.ofTopics`, `Link`, `Client`, `Link.handle`,
`Link.lose`, `Link.overhear`, `Link.command`, `Client.close`.
-/

namespace TunnelView

/-- What a link hears besides what is meant for it. -/
structure Overhearing where
  /-- Whether a report also comes in as a loss. -/
  reportAsLoss : Bool := false
  /-- Whether a status that goes out comes in as a loss. -/
  statusAsLoss : Bool := false
  /-- Whether a status that goes out comes in as a report, which it is not. -/
  statusAsReport : Bool := false
deriving DecidableEq, Repr

namespace Overhearing

/-- Where statuses go out unless told otherwise. -/
def statusesTopic : String := "tunnelstate.status.changed"

/-- Where reports come in unless told otherwise. -/
def reportsTopic : String := "tunnelstate.service.status"

/-- Where losses come in unless told otherwise. -/
def lossesTopic : String := "tunnelstate.service.lost"

/-- Who is shown statuses where they go out on a topic. -/
def statusListener : Listener := ⟨"on_status", "host", ["status"]⟩

/-- What listens for reports. -/
def reportListener : Listener :=
  ⟨"ServiceConnection._on_service_status", "tunnelstate.reconciler.service", ["notification"]⟩

/-- What listens for losses. -/
def lossListener : Listener :=
  ⟨"ServiceConnection._on_service_lost", "tunnelstate.reconciler.service", []⟩

/-- What is overheard if statuses go out on a topic or on none, after which the fields in `shapes`
are settled, and reports and losses come in on the topics of these names. -/
def ofTopics (statuses : Option Topic) (shapes : Topic.Shapes) (reports losses : Value) :
    Except Topic.Refusal Overhearing := do
  let (reports, shapes) ← shapes.listen reportListener reports
  let (losses, _) ← shapes.listen lossListener losses
  return {
    reportAsLoss := losses.isAbove reports
    statusAsLoss := statuses.any losses.isAbove
    statusAsReport := statuses.any reports.isAbove }

end Overhearing

/-- A link. -/
structure Link where
  reachable : Bool := true
  /-- Whether an account is logged in, as the host says. -/
  loggedIn : Value := .bool false
  /-- Whether it still listens for reports and for the loss of the service. -/
  listening : Bool := true
  overhears : Overhearing := {}

/-- What stands around a view: a link or none, a policy, and the host's memory. -/
structure Client (σ : Type) where
  link : Option Link := none
  policy : Policy := .standard
  memory : σ

/-- The assumption that a command is sent on. -/
def Command.assumption : Command → Assumption
  | .connect => .connecting
  | .reconnect => .connecting
  | .disconnect => .disconnecting

/-- The answer of a policy about a command. -/
def Policy.permits (p : Policy) (c : Command) (reachable loggedIn : Value) (phase : Phase) :
    Value :=
  match c with
  | .connect => p.connect reachable loggedIn phase
  | .reconnect => p.reconnect reachable loggedIn phase
  | .disconnect => p.disconnect reachable phase

/-- How many subscriptions a link holds: reports, and the loss of the service. -/
def Link.subscriptions (l : Link) : Nat := if l.listening then 2 else 0

variable {τ σ : Type} [Zero τ] [Add τ] [Sub τ] [LT τ] [DecidableLT τ]
  [LE τ] [DecidableLE τ]

namespace Link

/-- Changes the link, if there is one. -/
def change (f : Link → Link) : Run τ (Client σ) Unit :=
  .change fun w => { w with rest.owner.link := w.rest.owner.link.map f }

/-- Takes in a report: one that cannot be read is dropped, if its fault was foreseen, and any other
shows that the service can be reached. -/
def handle (out : Outside τ (Client σ)) (r : Report) : Run τ (Client σ) Bool :=
  match r.read with
  | .error fault =>
    if fault.isForeseen then do
      note (.dropped fault)
      return false
    else .fail (.report fault)
  | .ok s => do
    change ({ · with reachable := true })
    View.receive out s
    return true

/-- Takes in that the service is lost: it can no longer confirm what is assumed. -/
def lose : Run τ (Client σ) Unit := do
  note .serviceLost
  change ({ · with reachable := false })
  View.resetFallback

/-- Takes in a report that is sent to those who listen. -/
def takeIn (out : Outside τ (Client σ)) (r : Report) (l : Link) : Run τ (Client σ) Unit := do
  if l.listening then
    if l.overhears.reportAsLoss then lose
    discard (handle out r)

/-- Takes in a status that is sent to those who listen, before it gets to where it goes. -/
def overhear (l : Link) : Run τ (Client σ) Unit := do
  if l.listening then
    if l.overhears.statusAsLoss then lose
    if l.overhears.statusAsReport then
      .fail (.unexpected Overhearing.reportListener "status")

/-- Hands a command to the host; a failure to send it names the command. -/
def send (out : Outside τ (Client σ)) (c : Command) : Run τ (Client σ) Unit := fun w =>
  match out.send c w with
  | (.error (.failure f), w) => (.error (.failure (.command c f)), w)
  | result => result

/-- A user action: if it is permitted, its outcome is assumed and the command sent. -/
def command (out : Outside τ (Client σ)) (c : Command) (l : Link) : Run τ (Client σ) Bool := do
  let w ← Act.world
  let status := w.rest.view.status
  if (w.rest.owner.policy.permits c (.bool l.reachable) l.loggedIn status.phase).truth then
    View.assume out c.assumption
    send out c
    return true
  else
    note (.refused c status)
    return false

end Link

namespace Client

/-- The link, if there is one. -/
def link? : Run τ (Client σ) (Option Link) := fun w => (.ok w.rest.owner.link, w)

/-- Stops listening, and closes the view. -/
def close : Run τ (Client σ) Unit := do
  Link.change ({ · with listening := false })
  View.close

end Client
end TunnelView
