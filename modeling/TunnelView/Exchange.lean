import TunnelView.Topic.Shapes

/-!
# Who listens to what, and who holds a subscription

An exchange knows which listeners are subscribed to which topic, in the order in which they came; to
subscribe one again to a topic changes nothing, nor does taking away one that is not there. A
message on a topic reaches the listeners of the topics that it lies under first. All messages of an
exchange carry a status, so nobody can send on the root or listen there.

An owner keeps the subscriptions that were made for it, under tokens that are never used twice, so
that all of them can be taken away at once. Several owners may share an exchange.

Key definitions: `Exchange`, `Exchange.audience`, `Exchange.reached`, `Holdings`,
`Holdings.subscribe`, `Holdings.release`.
-/

namespace TunnelView

/-- Topics with their listeners, in the order of subscription. -/
abbrev Exchange (L : Type) := List (Topic × L)

namespace Exchange

variable {L : Type} [DecidableEq L]

/-- Subscribes a listener to a topic. -/
def subscribe (topic : Topic) (listener : L) (x : Exchange L) : Exchange L :=
  if (topic, listener) ∈ x then x else x ++ [(topic, listener)]

/-- Takes a listener away from a topic. -/
def unsubscribe (topic : Topic) (listener : L) (x : Exchange L) : Exchange L :=
  x.filter (· ≠ (topic, listener))

/-- Who gets a message on a topic, in order. -/
def audience (topic : Topic) (x : Exchange L) : List L :=
  topic.path.flatMap fun t => (x.filter (·.1 == t)).map (·.2)

/-- Who of an audience gets the message, when a listener that fails ends the delivery; and who it
was that failed. -/
def reached (fails : L → Bool) : List L → List L × Option L
  | [] => ([], none)
  | l :: rest =>
    if fails l then ([l], some l)
    else
      let (reached, failed) := reached fails rest
      (l :: reached, failed)

/-- The fields of all messages of an exchange. -/
def fields : List String := ["status"]

/-- The topic that a value names, for a listener of some name. -/
def listeningTopic (listener : String) (name : Value) : Except Topic.Refusal Topic :=
  (Topic.Shapes.listen ⟨listener, "host", fields⟩ name []).map (·.1)

/-- The topic that a value names, for a message. -/
def sendingTopic (name : Value) : Except Topic.Refusal Topic := Topic.Shapes.address fields name []

end Exchange

/-- The subscriptions made for one owner: each with its token, and the next token. -/
structure Holdings (L : Type) where
  held : List (Nat × Topic × L) := []
  next : Nat := 0

namespace Holdings

variable {L : Type} [DecidableEq L]

/-- Subscribes a listener on behalf of an owner; the token comes first. -/
def subscribe (topic : Topic) (listener : L) (h : Holdings L) (x : Exchange L) :
    Nat × Holdings L × Exchange L :=
  (h.next,
    { held := h.held ++ [(h.next, topic, listener)], next := h.next + 1 },
    x.subscribe topic listener)

/-- Takes away all that an owner holds. -/
def release (h : Holdings L) (x : Exchange L) : Holdings L × Exchange L :=
  ({ h with held := [] },
    h.held.foldl (fun x (_, topic, listener) => x.unsubscribe topic listener) x)

/-- How many subscriptions an owner holds. -/
def size (h : Holdings L) : Nat := h.held.length

end Holdings
end TunnelView
