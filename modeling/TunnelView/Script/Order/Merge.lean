import TunnelView.Script.Order.Search

/-!
# Merging two runs

Two sorted runs that stand next to each other become one. What need not move stays where it is: the
front of the first run, up to where the second begins, and the back of the second, from where the
first ends. Of what is left the shorter run is taken out and the items of both go back in order,
from the front if the first run is shorter and from the back otherwise.

Items go back one by one until one run has given many in a row; then the search from the front says
how many it gives at once, as long as that pays. How many count as many is a threshold that goes
from merge to merge: it falls while searching pays and rises when it does not.

Whatever the order does, all items come out again: no step changes `Merging.items` but in order.

Key definitions: `Merging`, `Merging.alternate`, `Merging.gallop`, `mergeBy`, `mergeRuns`.
Key theorem: `mergeRuns_perm`.
-/

namespace TunnelView.Order

variable {α : Type}

/-- Two runs that are being merged: what is out already, the newest first, and what is left of the
shorter and of the longer one. -/
structure Merging (α : Type) where
  out : List α := []
  short : List α
  long : List α

namespace Merging

/-- Whether the longer run is used up, or the shorter one down to its last item. -/
def isOver (m : Merging α) : Bool :=
  m.long.isEmpty || match m.short with
    | _ :: _ :: _ => false
    | _ => true

/-- All items; what is left of the longer run goes before what is left of the shorter. -/
def items (m : Merging α) : List α := m.out.reverse ++ m.long ++ m.short

/-- Lets items of the shorter run out. -/
def giveShort (n : Nat) (m : Merging α) : Merging α :=
  { m with out := (m.short.take n).reverse ++ m.out, short := m.short.drop n }

/-- Lets items of the longer run out. -/
def giveLong (n : Nat) (m : Merging α) : Merging α :=
  { m with out := (m.long.take n).reverse ++ m.out, long := m.long.drop n }

theorem giveShort_perm (n : Nat) (m : Merging α) : (m.giveShort n).items.Perm m.items := by
  have swapped : (m.short.take n ++ m.long).Perm (m.long ++ m.short.take n) :=
    List.perm_append_comm
  have := (swapped.append_left m.out.reverse).append_right (m.short.drop n)
  simpa [giveShort, items] using this

theorem giveLong_perm (n : Nat) (m : Merging α) : (m.giveLong n).items.Perm m.items := by
  have : (m.giveLong n).items = m.items := by
    simp [giveLong, items]
  rw [this]

/-- Lets items out one by one, until the merging is over or one run has given `many` in a row; so
far the shorter gave `byShort` in a row, or the longer `byLong`. The test `first x y` says whether
`y` of the longer run goes before `x` of the shorter. -/
def alternate (first : α → α → Bool) (many : Nat) :
    Nat → (byShort byLong : Nat) → Merging α → Merging α
  | 0, _, _, m => m
  | fuel + 1, byShort, byLong, m =>
    match m.short, m.long with
    | x :: _, y :: _ =>
      if first x y then
        let m := m.giveLong 1
        if m.isOver || many ≤ byLong + 1 then m else alternate first many fuel 0 (byLong + 1) m
      else
        let m := m.giveShort 1
        if m.isOver || many ≤ byShort + 1 then m else alternate first many fuel (byShort + 1) 0 m
    | _, _ => m

theorem alternate_perm (first : α → α → Bool) (many fuel byShort byLong : Nat) (m : Merging α) :
    (alternate first many fuel byShort byLong m).items.Perm m.items := by
  induction fuel generalizing byShort byLong m with
  | zero => exact .refl _
  | succ fuel ih =>
    unfold alternate
    split
    · split
      · dsimp only
        split
        · exact giveLong_perm 1 m
        · exact (ih _ _ _).trans (giveLong_perm 1 m)
      · dsimp only
        split
        · exact giveShort_perm 1 m
        · exact (ih _ _ _).trans (giveShort_perm 1 m)
    · exact .refl _

/-- Lets out all of the shorter run that goes before the longer one's next item, and that item. -/
def shortTurn (turned : Bool) (first : α → α → Bool) (m : Merging α) : Nat × Merging α :=
  match m.long with
  | [] => (0, m)
  | y :: _ =>
    let n := leading turned (fun x => !first x y) m.short
    let m := m.giveShort n
    (n, if m.isOver then m else m.giveLong 1)

/-- Lets out all of the longer run that goes before the shorter one's next item, and that item. -/
def longTurn (turned : Bool) (first : α → α → Bool) (m : Merging α) : Nat × Merging α :=
  match m.short with
  | [] => (0, m)
  | x :: _ =>
    let n := leading turned (first x) m.long
    let m := m.giveLong n
    (n, if m.isOver then m else m.giveShort 1)

theorem shortTurn_perm (turned : Bool) (first : α → α → Bool) (m : Merging α) :
    (m.shortTurn turned first).2.items.Perm m.items := by
  unfold shortTurn
  split
  · exact .refl _
  · dsimp only
    split
    · exact giveShort_perm _ m
    · exact (giveLong_perm 1 _).trans (giveShort_perm _ m)

theorem longTurn_perm (turned : Bool) (first : α → α → Bool) (m : Merging α) :
    (m.longTurn turned first).2.items.Perm m.items := by
  unfold longTurn
  split
  · exact .refl _
  · dsimp only
    split
    · exact giveLong_perm _ m
    · exact (giveShort_perm 1 _).trans (giveLong_perm _ m)

/-- The least number of items that it pays to look for. -/
def worthwhile : Nat := 7

/-- The first of two turns: that of the run which stands first. Where the runs are `turned` round
that is the longer one. -/
def firstTurn (turned : Bool) (first : α → α → Bool) (m : Merging α) : Nat × Merging α :=
  if turned then m.longTurn turned first else m.shortTurn turned first

/-- The second of two turns. -/
def secondTurn (turned : Bool) (first : α → α → Bool) (m : Merging α) : Nat × Merging α :=
  if turned then m.shortTurn turned first else m.longTurn turned first

theorem firstTurn_perm (turned : Bool) (first : α → α → Bool) (m : Merging α) :
    (m.firstTurn turned first).2.items.Perm m.items := by
  unfold firstTurn
  split
  · exact longTurn_perm _ _ _
  · exact shortTurn_perm _ _ _

theorem secondTurn_perm (turned : Bool) (first : α → α → Bool) (m : Merging α) :
    (m.secondTurn turned first).2.items.Perm m.items := by
  unfold secondTurn
  split
  · exact shortTurn_perm _ _ _
  · exact longTurn_perm _ _ _

/-- Lets items out turn by turn as long as that pays; the threshold comes first. -/
def gallop (turned : Bool) (first : α → α → Bool) :
    Nat → (many : Nat) → Merging α → Nat × Merging α
  | 0, many, m => (many, m)
  | fuel + 1, many, m =>
    let many := if 1 < many then many - 1 else many
    let one := m.firstTurn turned first
    let two := one.2.secondTurn turned first
    if one.2.isOver then (many, one.2)
    else if two.2.isOver then (many, two.2)
    else if worthwhile ≤ one.1 ∨ worthwhile ≤ two.1 then gallop turned first fuel many two.2
    else (many + 1, two.2)

theorem gallop_perm (turned : Bool) (first : α → α → Bool) (fuel many : Nat) (m : Merging α) :
    (gallop turned first fuel many m).2.items.Perm m.items := by
  induction fuel generalizing many m with
  | zero => exact .refl _
  | succ fuel ih =>
    have one := firstTurn_perm turned first m
    have two := (secondTurn_perm turned first (m.firstTurn turned first).2).trans one
    unfold gallop
    dsimp only
    repeat' split
    all_goals first | exact one | exact two | exact (ih _ _).trans two

/-- Goes on, one by one and turn by turn, until the merging is over; the threshold comes first. -/
def finish (turned : Bool) (first : α → α → Bool) :
    Nat → (many : Nat) → Merging α → Nat × Merging α
  | 0, many, m => (many, m)
  | fuel + 1, many, m =>
    if m.isOver then (many, m)
    else
      let m := alternate first many (m.short.length + m.long.length) 0 0 m
      if m.isOver then (many, m)
      else
        let next := gallop turned first (m.short.length + m.long.length) (many + 1) m
        finish turned first fuel next.1 next.2

theorem finish_perm (turned : Bool) (first : α → α → Bool) (fuel many : Nat) (m : Merging α) :
    (finish turned first fuel many m).2.items.Perm m.items := by
  induction fuel generalizing many m with
  | zero => exact .refl _
  | succ fuel ih =>
    unfold finish
    split
    · exact .refl _
    · dsimp only
      split
      · exact alternate_perm _ _ _ _ _ m
      · exact (ih _ _).trans ((gallop_perm _ _ _ _ _).trans (alternate_perm _ _ _ _ _ m))

end Merging

/-- Merges a shorter run into a longer one, whose first item is known to go out first; the threshold
comes first. -/
def mergeBy (turned : Bool) (first : α → α → Bool) (many : Nat) (short long : List α) :
    Nat × List α :=
  let m := Merging.finish turned first (short.length + long.length) many
    (Merging.giveLong 1 { short, long })
  (m.1, m.2.items)

theorem mergeBy_perm (turned : Bool) (first : α → α → Bool) (many : Nat) (short long : List α) :
    (mergeBy turned first many short long).2.Perm (long ++ short) :=
  (Merging.finish_perm _ _ _ _ _).trans (Merging.giveLong_perm 1 { short, long })

/-- Merges two runs of which all items have to move; the threshold comes first. -/
def mergeMoving (lt : α → α → Bool) (many : Nat) (a b : List α) : Nat × List α :=
  if b.isEmpty then (many, a)
  else if a.length ≤ b.length then mergeBy false (fun x y => lt y x) many a b
  else
    let merged := mergeBy true lt many b.reverse a.reverse
    (merged.1, merged.2.reverse)

theorem mergeMoving_perm (lt : α → α → Bool) (many : Nat) (a b : List α) :
    (mergeMoving lt many a b).2.Perm (a ++ b) := by
  unfold mergeMoving
  split
  · simp_all
  · split
    · exact (mergeBy_perm _ _ _ _ _).trans List.perm_append_comm
    · refine (List.reverse_perm _).trans ((mergeBy_perm _ _ _ _ _).trans ?_)
      exact (List.reverse_perm a).append (List.reverse_perm b)

/-- Merges two runs that stand next to each other; the threshold comes first. -/
def mergeRuns (lt : α → α → Bool) (many : Nat) (a b : List α) : Nat × List α :=
  match b with
  | [] => (many, a)
  | y :: _ =>
    let stays := leading false (fun x => !lt y x) a
    match (a.drop stays).getLast? with
    | none => (many, a ++ b)
    | some x =>
      let moved := b.length - leading true (fun z => !lt z x) b.reverse
      let merged := mergeMoving lt many (a.drop stays) (b.take moved)
      (merged.1, a.take stays ++ merged.2 ++ b.drop moved)

theorem mergeInside_perm (lt : α → α → Bool) (many stays moved : Nat) (a b : List α) :
    (a.take stays ++ (mergeMoving lt many (a.drop stays) (b.take moved)).2 ++ b.drop moved).Perm
      (a ++ b) := by
  have inside := mergeMoving_perm lt many (a.drop stays) (b.take moved)
  refine ((inside.append_left (a.take stays)).append_right (b.drop moved)).trans ?_
  rw [← List.append_assoc, List.take_append_drop, List.append_assoc, List.take_append_drop]

theorem mergeRuns_perm (lt : α → α → Bool) (many : Nat) (a b : List α) :
    (mergeRuns lt many a b).2.Perm (a ++ b) := by
  unfold mergeRuns
  split
  · simp
  · dsimp only
    split
    · exact .refl _
    · exact mergeInside_perm _ _ _ _ _ _

end TunnelView.Order
