import TunnelView.Status
import TunnelView.Text.Case

/-!
# Reports of the service

A report is an object under whose `state` stands the name of a phase, in any case; while
disconnecting it may name an aim under `reason` or, if there is no such key, under `details`. Other
keys are ignored. `ofStatus` writes the report of a status, without what is unset.

What is no report is refused with a wording that says why. The wording takes texts of the report; if
there are none, because of an integer that is too long, the wording itself fails, which is not a
fault that is held back anywhere (`Fault.isForeseen`).

Key definitions: `Report`, `Report.Fault`, `Report.Fault.about`, `Report.read`, `Report.fields`.
-/

namespace TunnelView

/-- A report as it comes in: a value that is yet to be read, or a status made in place. -/
inductive Report where
  | raw (v : Value)
  | ready (s : Status)

namespace Report

/-- Why a value is not a report. -/
inductive Fault where
  | notAnObject (kind : String)
  | noState (fields : List (String × Value))
  | unknownState (name : Value)
  | unknownAim (name : Value)
  /-- Some other fault was to be worded with a text that there is not. -/
  | noText

/-- Whether a fault is one that reports are expected to have. -/
def Fault.isForeseen : Fault → Bool
  | .noText => false
  | _ => true

theorem Fault.isForeseen_eq_false {fault : Fault} : fault.isForeseen = false ↔ fault = .noText := by
  cases fault <;> simp [isForeseen]

/-- A fault that is worded with the text of a value. -/
def Fault.about (v : Value) (fault : Fault) : Fault := if v.hasText then fault else .noText

/-- The wording of a fault. -/
def Fault.message : Fault → String
  | .notAnObject kind => "Status notification must be a mapping, got " ++ kind
  | .noState fields =>
    "Status notification has no 'state' field: " ++ (Value.object fields).literal
  | .unknownState name => "Unknown tunnel state '" ++ name.display ++ "'"
  | .unknownAim name => "Unknown disconnect reason '" ++ name.display ++ "'"
  | .noText => Number.noText

/-- The value that names the aim: `details` counts only where there is no `reason` key. -/
def aimField (fields : List (String × Value)) : Value :=
  (Value.find? fields "reason").getD (Value.get fields "details")

/-- The aim that a report names; to do nothing if it names none. -/
def readAim (fields : List (String × Value)) : Except Fault Aim :=
  let named := aimField fields
  if named.isNull then .ok .nothing
  else match named.display?.bind fun text => Aim.ofName? (Text.lower text) with
    | some aim => .ok aim
    | none => .error (.about named (.unknownAim named))

/-- The details of a report. -/
def readDetails (fields : List (String × Value)) : Details where
  endpoint := Value.get fields "endpoint"
  location := Value.get fields "location"
  cause := Value.get fields "error_cause"

/-- The status that the fields of a report stand for. -/
def readFields (fields : List (String × Value)) : Except Fault Status :=
  let named := Value.get fields "state"
  if named.isNull then .error (.about (.object fields) (.noState fields))
  else match named.display?.bind fun text => Phase.ofName? (Text.lower text) with
    | none => .error (.about named (.unknownState named))
    | some .disconnecting =>
      (readAim fields).map fun aim => .ofParts .disconnecting (some aim) (readDetails fields)
    | some phase => .ok (.ofParts phase none (readDetails fields))

/-- The status that a value stands for. -/
def readValue : Value → Except Fault Status
  | .object fields => readFields fields
  | v => .error (.notAnObject v.kind)

/-- The status of a report. -/
def read : Report → Except Fault Status
  | .raw v => readValue v
  | .ready s => .ok s

/-- A field, unless its value is unset. -/
def fieldIfSet (key : String) (v : Value) : List (String × Value) :=
  if v.isNull then [] else [(key, v)]

/-- The fields of the report of a status. -/
def fields (s : Status) : List (String × Value) :=
  [("state", .text s.phase.name)]
    ++ (match s.aim? with
      | some aim => [("reason", .text aim.name)]
      | none => [])
    ++ fieldIfSet "endpoint" s.details.endpoint
    ++ fieldIfSet "location" s.details.location
    ++ fieldIfSet "error_cause" s.details.cause

/-- The report of a status. -/
def ofStatus (s : Status) : Value := .object (fields s)

end Report
end TunnelView
