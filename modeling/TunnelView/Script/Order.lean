import TunnelView.Script.Order.Merge

/-!
# Stable sorting by merging runs

The list is cut into runs that are in order already, or strictly against it and are then turned
round; a run that is too short is filled up, each item put in behind all that are not above it.
Neighbouring runs are merged, and the power of the border between them says when: the border in the
middle of the list has power one, those at the quarters two, and so on, and two runs are merged as
soon as a border of lesser power comes.

Where `lt` orders all items this is the stable sort. Where it does not, as with numbers that compare
with nothing, it is still a rearrangement, and which one depends on the runs and on the items that
are compared.

Key definitions: `nextRun`, `borderPower`, `collapse`, `mergeAll`, `sort`.
Key theorem: `sort_perm`.
-/

namespace TunnelView.Order

variable {α : Type} (lt : α → α → Bool)

/-- Puts `x` into its place: behind the items that are not above it. -/
def insertSorted (xs : List α) (x : α) : List α :=
  let i := seek false (fun i => xs[i]?.any fun y => !lt x y) 0 xs.length
  xs.take i ++ x :: xs.drop i

theorem insertSorted_perm (xs : List α) (x : α) : (insertSorted lt xs x).Perm (x :: xs) := by
  unfold insertSorted
  exact List.perm_middle.trans (by rw [List.take_append_drop])

/-- The items behind `a` that never go down, and the rest. -/
def risingRun (a : α) : List α → List α × List α
  | [] => ([], [])
  | b :: rest =>
    if lt b a then ([], b :: rest)
    else (b :: (risingRun b rest).1, (risingRun b rest).2)

theorem risingRun_append (a : α) (xs : List α) :
    (risingRun lt a xs).1 ++ (risingRun lt a xs).2 = xs := by
  induction xs generalizing a with
  | nil => rfl
  | cons b rest ih => by_cases h : lt b a <;> simp [risingRun, h, ih]

/-- The items behind `a` that always go down, and the rest. -/
def fallingRun (a : α) : List α → List α × List α
  | [] => ([], [])
  | b :: rest =>
    if lt b a then (b :: (fallingRun b rest).1, (fallingRun b rest).2)
    else ([], b :: rest)

theorem fallingRun_append (a : α) (xs : List α) :
    (fallingRun lt a xs).1 ++ (fallingRun lt a xs).2 = xs := by
  induction xs generalizing a with
  | nil => rfl
  | cons b rest ih => by_cases h : lt b a <;> simp [fallingRun, h, ih]

/-- The run at the front, in order, and the rest. -/
def firstRun : List α → List α × List α
  | [] => ([], [])
  | [a] => ([a], [])
  | a :: b :: rest =>
    if lt b a then ((a :: b :: (fallingRun lt b rest).1).reverse, (fallingRun lt b rest).2)
    else (a :: b :: (risingRun lt b rest).1, (risingRun lt b rest).2)

theorem firstRun_perm (xs : List α) : ((firstRun lt xs).1 ++ (firstRun lt xs).2).Perm xs := by
  match xs with
  | [] => exact .refl _
  | [a] => exact .refl _
  | a :: b :: rest =>
    by_cases h : lt b a
    · have turned := (List.reverse_perm (a :: b :: (fallingRun lt b rest).1)).append_right
        (fallingRun lt b rest).2
      simpa [firstRun, h, fallingRun_append] using turned
    · simp [firstRun, h, risingRun_append]

/-- The run at the front, filled up from the rest to a least length. -/
def nextRun (least : Nat) (xs : List α) : List α × List α :=
  let (run, rest) := firstRun lt xs
  let more := least - run.length
  ((rest.take more).foldl (insertSorted lt) run, rest.drop more)

theorem foldl_insertSorted_perm (xs run : List α) :
    (xs.foldl (insertSorted lt) run).Perm (run ++ xs) := by
  induction xs generalizing run with
  | nil => simp
  | cons x xs ih =>
    refine (ih _).trans (((insertSorted_perm lt run x).append_right xs).trans ?_)
    exact List.perm_middle.symm

theorem nextRun_perm (least : Nat) (xs : List α) :
    ((nextRun lt least xs).1 ++ (nextRun lt least xs).2).Perm xs := by
  unfold nextRun
  refine ((foldl_insertSorted_perm lt _ _).append_right _).trans ?_
  rw [List.append_assoc, List.take_append_drop]
  exact firstRun_perm lt xs

/-- The least length of a run in a list of `n` items: all of a short list; of a long one its first
six binary places, and one more unless all further ones are zero. -/
def leastRun (n : Nat) : Nat :=
  if n < 64 then n
  else
    let rest := n.log2 - 5
    (n >>> rest) + if n % (1 <<< rest) = 0 then 0 else 1

/-- The first binary place in which the middles of two neighbouring runs differ, as parts of a whole
of `n` items; the first of the runs begins at `start`. -/
def borderPower (start len nextLen n : Nat) : Nat :=
  let a := 2 * start + len
  let b := a + len + nextLen
  ((List.range (n.log2 + 2)).findIdx fun k => (a <<< k) / n ≠ (b <<< k) / n) + 1

/-- A run that waits to be merged with the one behind it, and the power of the border to that one.
-/
structure Waiting (α : Type) where
  run : List α
  power : Nat

/-- The items of runs that wait, the last of which comes first. -/
def items (runs : List (List α)) : List α := runs.reverse.flatten

/-- Merges a run with those that wait before it, as long as their borders have more power. -/
def collapse (power : Nat) (many : Nat) (run : List α) :
    List (Waiting α) → Nat × List α × List (Waiting α)
  | [] => (many, run, [])
  | w :: rest =>
    if power < w.power then
      let merged := mergeRuns lt many w.run run
      collapse power merged.1 merged.2 rest
    else (many, run, w :: rest)

theorem collapse_perm (power many : Nat) (run : List α) (waiting : List (Waiting α)) :
    (items ((collapse lt power many run waiting).2.1
        :: (collapse lt power many run waiting).2.2.map (·.run))).Perm
      (items (run :: waiting.map (·.run))) := by
  induction waiting generalizing many run with
  | nil => exact .refl _
  | cons w rest ih =>
    unfold collapse
    split
    · refine (ih _ _).trans ?_
      simpa [items] using (mergeRuns_perm lt many w.run run).append_left _
    · exact .refl _

/-- Merges all runs, the last of which comes first: the last two, or the two before the last if that
is longer than the one before those. -/
def mergeAll (many : Nat) : (runs : List (List α)) → List α
  | [] => []
  | [run] => run
  | [c, b] => (mergeRuns lt many b c).2
  | c :: b :: a :: rest =>
    if a.length < c.length then
      let merged := mergeRuns lt many a b
      mergeAll merged.1 (c :: merged.2 :: rest)
    else
      let merged := mergeRuns lt many b c
      mergeAll merged.1 (merged.2 :: a :: rest)
termination_by runs => runs.length

theorem mergeAll_perm (many : Nat) (runs : List (List α)) :
    (mergeAll lt many runs).Perm (items runs) := by
  fun_induction mergeAll lt many runs with
  | case1 => exact .refl _
  | case2 => simp [items]
  | case3 many c b => simpa [items] using mergeRuns_perm lt many b c
  | case4 many c b a rest _ merged ih =>
    refine ih.trans ?_
    simpa [items] using ((mergeRuns_perm lt many a b).append_right c).append_left _
  | case5 many c b a rest _ merged ih =>
    refine ih.trans ?_
    simpa [items] using ((mergeRuns_perm lt many b c).append_left a).append_left _

/-- Takes runs off the front of the items that are left, of `n` in all, and merges them. The run
`last` is the one that was taken last, and begins at `start`. -/
def mergeRest (n : Nat) : Nat → (many start : Nat) → (last : List α) → List (Waiting α) →
    List α → List α
  | 0, many, _, last, waiting, xs => mergeAll lt many (last :: waiting.map (·.run)) ++ xs
  | fuel + 1, many, start, last, waiting, xs =>
    if xs.isEmpty then mergeAll lt many (last :: waiting.map (·.run))
    else
      let next := nextRun lt (leastRun n) xs
      let power := borderPower start last.length next.1.length n
      let merged := collapse lt power many last waiting
      mergeRest n fuel merged.1 (n - xs.length) next.1 (⟨merged.2.1, power⟩ :: merged.2.2) next.2

theorem mergeRest_perm (n fuel many start : Nat) (last : List α) (waiting : List (Waiting α))
    (xs : List α) :
    (mergeRest lt n fuel many start last waiting xs).Perm
      (items (last :: waiting.map (·.run)) ++ xs) := by
  induction fuel generalizing many start last waiting xs with
  | zero => exact (mergeAll_perm lt many _).append_right xs
  | succ fuel ih =>
    unfold mergeRest
    split
    · simp_all [mergeAll_perm]
    · refine (ih _ _ _ _ _).trans ?_
      have whole := (collapse_perm lt
        (borderPower start last.length (nextRun lt (leastRun n) xs).1.length n) many last
        waiting).append (nextRun_perm lt (leastRun n) xs)
      simpa [items] using whole

/-- The items in order. -/
def sort (xs : List α) : List α :=
  let next := nextRun lt (leastRun xs.length) xs
  mergeRest lt xs.length next.2.length Merging.worthwhile 0 next.1 [] next.2

theorem sort_perm (xs : List α) : (sort lt xs).Perm xs := by
  refine (mergeRest_perm lt _ _ _ _ _ _ _).trans ?_
  simpa [items] using nextRun_perm lt (leastRun xs.length) xs

end TunnelView.Order
