/-!
# Heaps

A heap is an array in which the item at `i` is not meant to stand behind those at `2 * i + 1` and
`2 * i + 2`. To put an item in it is appended and rises; to take the top off the last item takes its
place, sinks to a leaf past the lesser of its children each time, and rises again from there.

Where `lt` orders all items the top is the least. Where it does not, the top is whatever these steps
leave there, so they are fixed down to the comparisons that they make.

Key definitions: `Heap.push`, `Heap.pop`.
-/

namespace TunnelView.Heap

variable {α : Type} (lt : α → α → Bool)

/-- Whether the item at one place is below that at another. -/
def below (h : Array α) (i j : Nat) : Bool :=
  match h[i]?, h[j]? with
  | some x, some y => lt x y
  | _, _ => false

/-- Lets the item at a place rise past all parents that it is below. -/
def rise (place : Nat) (h : Array α) : Array α :=
  if place = 0 then h
  else
    let parent := (place - 1) / 2
    if below lt h place parent then rise parent (h.swapIfInBounds place parent) else h
termination_by place

/-- The child of a place that goes up: the left one if it is below the right one or stands alone. -/
def lesserChild (place : Nat) (h : Array α) : Nat :=
  let left := 2 * place + 1
  if left + 1 < h.size ∧ !below lt h left (left + 1) then left + 1 else left

/-- Lets the item at a place sink to a leaf; the leaf comes first. -/
def sink (place : Nat) (h : Array α) : Nat × Array α :=
  if 2 * place + 1 < h.size then
    sink (lesserChild lt place h) (h.swapIfInBounds place (lesserChild lt place h))
  else (place, h)
termination_by h.size - place
decreasing_by
  rw [Array.size_swapIfInBounds]
  unfold lesserChild
  grind

/-- Puts an item in. -/
def push (x : α) (h : Array α) : Array α := rise lt h.size (h.push x)

/-- Takes the top off. -/
def pop (h : Array α) : Array α :=
  match h.back? with
  | none => h
  | some last =>
    let h := h.pop
    if h.isEmpty then h
    else
      let (leaf, h) := sink lt 0 (h.setIfInBounds 0 last)
      rise lt leaf h

end TunnelView.Heap
