import TunnelView.Status

/-!
# Which user actions are permitted

A policy answers for each action whether it is permitted now, from whether the service can be
reached, whether an account is logged in, and the phase on show. Its inputs and answers are values,
since a host may bring queries of its own; they are judged by their truth.

Key definitions: `Policy`, `Policy.standard`.
-/

namespace TunnelView

/-- Queries for the three user actions. -/
structure Policy where
  connect : (reachable loggedIn : Value) → Phase → Value
  reconnect : (reachable loggedIn : Value) → Phase → Value
  disconnect : (reachable : Value) → Phase → Value

namespace Policy

/-- The first value that does not count as true, or else the last. -/
def both (a b : Value) : Value := if a.truth then b else a

/-- Connecting takes a service, an account, and a tunnel that is not up or coming up. -/
def standardConnect (reachable loggedIn : Value) (phase : Phase) : Value :=
  both reachable (both loggedIn
    (.bool (phase == .disconnected || phase == .disconnecting || phase == .error)))

/-- Reconnecting takes a service, an account, and a tunnel that is up or coming up. -/
def standardReconnect (reachable loggedIn : Value) (phase : Phase) : Value :=
  both reachable (both loggedIn (.bool (phase == .connected || phase == .connecting)))

/-- Disconnecting takes a service and a tunnel that is not down. -/
def standardDisconnect (reachable : Value) (phase : Phase) : Value :=
  both reachable (.bool (phase != .disconnected))

/-- The policy unless a host brings its own. -/
def standard : Policy := ⟨standardConnect, standardReconnect, standardDisconnect⟩

end Policy
end TunnelView
