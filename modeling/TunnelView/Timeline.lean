import TunnelView.Status
import TunnelView.Table

/-!
# Timelines

A timeline is a table of the statuses that were shown, each with the time in whole milliseconds.

Key definitions: `Timeline.columns`, `Timeline.render`.
-/

namespace TunnelView.Timeline

/-- The columns of a timeline. -/
def columns (commits : List (Number × Status)) : List Table.Column :=
  let column := fun header (value : Number × Status → Value) =>
    ({ header, values := commits.map value } : Table.Column)
  [column "at (ms)" fun (time, _) => .text time.toDouble.wholeText,
    column "state" fun (_, s) => .text s.phase.name,
    column "reason" fun (_, s) => (s.aim?.map fun aim => Value.text aim.name).getD .null,
    column "endpoint" fun (_, s) => s.details.endpoint,
    column "location" fun (_, s) => s.details.location,
    column "error" fun (_, s) => s.details.cause]

/-- The lines of a timeline. -/
def render (commits : List (Number × Status)) : Except Table.Beyond (List String) :=
  if commits.isEmpty then .ok ["No status was committed."]
  else if commits.any fun (time, _) => Cell.isBeyond (.number time) then .error {}
  else Table.render commits.length (columns commits)

end TunnelView.Timeline
