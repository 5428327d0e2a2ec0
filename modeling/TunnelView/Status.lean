import TunnelView.Value

/-!
# What a tunnel is doing

A status is a condition of the tunnel with details for display. While it disconnects the condition
says what the service means to do afterwards (`Aim`), and in no other condition is there such an
aim. The client decides by phase and aim alone; details are carried along unseen.

Key definitions: `Phase`, `Aim`, `Condition`, `Details`, `Status`, `Status.ofParts`.
-/

namespace TunnelView

/-- The phases that a service reports. -/
inductive Phase where
  | disconnected
  | connecting
  | connected
  | disconnecting
  | error
deriving DecidableEq, Repr

/-- What the service means to do once the tunnel is down. -/
inductive Aim where
  | nothing
  | block
  | reconnect
deriving DecidableEq, Repr

/-- A phase, with its aim where it has one. -/
inductive Condition where
  | disconnected
  | connecting
  | connected
  | disconnecting (aim : Aim)
  | error
deriving DecidableEq, Repr

/-- What is known of a status beyond its condition; null where nothing is. -/
structure Details where
  endpoint : Value := .null
  location : Value := .null
  cause : Value := .null

/-- A condition with its details. -/
structure Status where
  condition : Condition
  details : Details := {}

namespace Phase

/-- All phases. -/
def all : List Phase := [.disconnected, .connecting, .connected, .disconnecting, .error]

/-- The name of a phase in reports. -/
def name : Phase → String
  | .disconnected => "disconnected"
  | .connecting => "connecting"
  | .connected => "connected"
  | .disconnecting => "disconnecting"
  | .error => "error"

/-- The phase of a name. -/
def ofName? (s : String) : Option Phase := all.find? (·.name == s)

end Phase

namespace Aim

/-- All aims. -/
def all : List Aim := [.nothing, .block, .reconnect]

/-- The name of an aim in reports. -/
def name : Aim → String
  | .nothing => "nothing"
  | .block => "block"
  | .reconnect => "reconnect"

/-- The aim of a name. -/
def ofName? (s : String) : Option Aim := all.find? (·.name == s)

end Aim

namespace Condition

/-- The phase of a condition. -/
def phase : Condition → Phase
  | .disconnected => .disconnected
  | .connecting => .connecting
  | .connected => .connected
  | .disconnecting _ => .disconnecting
  | .error => .error

/-- The aim of a condition that has one. -/
def aim? : Condition → Option Aim
  | .disconnecting aim => some aim
  | _ => none

/-- The condition of a phase; an aim counts while disconnecting only, and is to do nothing unless
given. -/
def ofParts (phase : Phase) (aim : Option Aim) : Condition :=
  match phase with
  | .disconnected => .disconnected
  | .connecting => .connecting
  | .connected => .connected
  | .disconnecting => .disconnecting (aim.getD .nothing)
  | .error => .error

end Condition

namespace Status

/-- The phase of a status. -/
def phase (s : Status) : Phase := s.condition.phase

/-- The aim of a status that has one. -/
def aim? (s : Status) : Option Aim := s.condition.aim?

/-- A condition without details. -/
def bare (condition : Condition) : Status := { condition }

/-- A status from its parts. -/
def ofParts (phase : Phase) (aim : Option Aim) (details : Details) : Status :=
  { condition := .ofParts phase aim, details }

/-- Whether the service brings the tunnel down in order to connect anew. -/
def isReconnecting (s : Status) : Bool := s.condition == .disconnecting .reconnect

/-- Whether the service has given up. -/
def isError (s : Status) : Bool := s.condition == .error

/-- Equality of statuses, with details compared as values are. -/
def agrees (a b : Status) : Bool :=
  a.condition == b.condition
    && a.details.endpoint.agrees b.details.endpoint
    && a.details.location.agrees b.details.location
    && a.details.cause.agrees b.details.cause

/-- The phase, with the aim in brackets. -/
def text (s : Status) : String :=
  match s.aim? with
  | some aim => s.phase.name ++ "(" ++ aim.name ++ ")"
  | none => s.phase.name

end Status
end TunnelView
