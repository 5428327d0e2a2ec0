/-!
# Searching a sorted list from its front

How many items at the front of a list pass a test, where those that pass are meant to stand before
those that do not. The search tries the items 0, 1, 3, 7 and so on, each step twice the last, until
one fails, and halves what lies between. On a list whose items pass and fail in any order the answer
is still some place in the list, and which one depends on the items that are tried.

Between an odd number of items there is one middle, between an even number there are two; a search
of a list that was turned round takes the other one, so that it tries the same items.

Key definitions: `seek`, `stride`, `leading`.
-/

namespace TunnelView.Order

/-- The first place from `low` to `high` that fails, by halving; of two middles the first is tried
if `turned`, else the second. -/
def seek (turned : Bool) (passes : Nat → Bool) (low high : Nat) : Nat :=
  if low < high then
    let middle := low + (if turned then high - low - 1 else high - low) / 2
    if passes middle then seek turned passes (middle + 1) high
    else seek turned passes low middle
  else low
termination_by high - low
decreasing_by all_goals grind

/-- The last place that passed and the first that did not, in steps that double; the end of the list
counts as failing. -/
def stride (passes : Nat → Bool) (length last next : Nat) : Nat × Nat :=
  if next < length then
    if passes next then stride passes length next (2 * next + 1) else (last, next)
  else (last, length)
termination_by length - next

/-- How many items at the front pass. -/
def leading {α : Type} (turned : Bool) (p : α → Bool) (xs : List α) : Nat :=
  let passes := fun i => xs[i]?.any p
  if passes 0 then
    let (last, next) := stride passes xs.length 0 1
    seek turned passes (last + 1) next
  else 0

end TunnelView.Order
