import Mathlib.Data.List.Induction
import Mathlib.Data.List.ReduceOption
import TunnelView.Proofs.Watch.Alike

/-!
# Reports are shown in the order in which they came

Which report a status on show comes from can be told by a mark: details are carried along unseen, so
a view that is given each report with its number in place of its details does just the same, and the
numbers that it shows tell where its statuses come from (`Course.origins`).

A report that was put off is newer than anything on show or behind it, and a fallback is at least as
new as anything shown so far. It is newer, unless it was on show itself when an assumption took its
place and no report has passed the quiet window since.

Key definitions: `Status.marked`, `Course.marked`, `Course.origins`, `Watch.InOrder`, `Watch.Held`.
Key theorems: `Watch.InOrder.meet`, `Watch.shown_meet`, `Session.reports_in_order`,
`Session.exists_origins`.
-/

namespace TunnelView

/-! ### Marks -/

/-- A status with a number in place of its details. -/
def Status.marked (n : ℕ) (s : Status) : Status :=
  { s with details := { endpoint := .number (.int n) } }

/-- The number that a status is marked with. -/
def Status.mark? (s : Status) : Option ℕ :=
  match s.details.endpoint with
  | .number (.int n) => some n.toNat
  | _ => none

theorem Status.mark?_marked (n : ℕ) (s : Status) : (s.marked n).mark? = some n := rfl

theorem Status.mark?_bare (c : Condition) : (Status.bare c).mark? = none := rfl

theorem Assumption.mark?_status (a : Assumption) : a.status.mark? = none := by cases a <;> rfl

variable {τ ο σ : Type}

/-- A move with a number in place of the details of its report. -/
def Move.marked (n : ℕ) : Move τ → Move τ
  | .report s => .report (s.marked n)
  | move => move

theorem Move.intervenes_marked (n : ℕ) (move : Move τ) :
    (move.marked n).intervenes = move.intervenes := by
  cases move <;> rfl

namespace Course

/-- The reports that come in in a course, in order of receipt. -/
def reports : List (Move τ) → List Status
  | [] => []
  | .report s :: moves => s :: reports moves
  | _ :: moves => reports moves

/-- A course in which the reports are marked with their numbers, from `n` on. -/
def marked (n : ℕ) : List (Move τ) → List (Move τ)
  | [] => []
  | move :: moves => move.marked n :: marked (n + (reports [move]).length) moves

theorem reports_append (before after : List (Move τ)) :
    reports (before ++ after) = reports before ++ reports after := by
  induction before with
  | nil => rfl
  | cons move before ih => cases move <;> simp [reports, ih]

/-- The reports of a course come from outside. -/
theorem reports_filter (moves : List (Move τ)) :
    reports (moves.filter Move.isAsked) = reports moves := by
  induction moves with
  | nil => rfl
  | cons move moves ih =>
    rw [List.filter_cons]
    cases move <;> simp [reports, Move.isAsked, ih]

theorem marked_append (n : ℕ) (before after : List (Move τ)) : marked n (before ++ after) =
    marked n before ++ marked (n + (reports before).length) after := by
  induction before generalizing n with
  | nil => rfl
  | cons move before ih =>
    rw [← List.singleton_append, reports_append, List.length_append, ← Nat.add_assoc]
    exact congrArg _ (ih _)

end Course

/-- A status is what another, marked one stands for, among the reports that are numbered. -/
structure Status.StandsFor (reports : List Status) (s mark : Status) : Prop where
  condition : s.condition = mark.condition
  report : ∀ n, mark.mark? = some n → reports[n]? = some s
  bare : mark.mark? = none → s = .bare s.condition

theorem Status.likeness_standsFor (reports : List Status) : Likeness (StandsFor reports) where
  condition h := h.condition
  bare c := ⟨rfl, by simp [mark?_bare], fun _ => rfl⟩

theorem Move.alike_marked (earlier later : List Status) (move : Move τ) :
    move.Alike (Status.StandsFor (earlier ++ (Course.reports [move] ++ later)))
      (move.marked earlier.length) := by
  cases move with
  | report s =>
    refine .report ⟨rfl, fun n hn => ?_, fun hn => ?_⟩
    · rw [Status.mark?_marked] at hn
      obtain rfl := Option.some.inj hn
      simp [Course.reports]
    · contradiction
  | assume a => exact .assume a
  | reset => exact .reset
  | ring => exact .ring
  | wait time => exact .wait time

/-- A marked course is the same course but for details. -/
theorem Course.alike_marked (earlier later : List Status) (moves : List (Move τ)) :
    List.Forall₂ (Move.Alike (Status.StandsFor (earlier ++ (reports moves ++ later)))) moves
      (marked earlier.length moves) := by
  induction moves generalizing earlier with
  | nil => exact .nil
  | cons move moves ih =>
    have hrest := ih (earlier ++ reports [move])
    rw [List.length_append, List.append_assoc] at hrest
    rw [← List.singleton_append, reports_append, List.append_assoc]
    exact .cons (Move.alike_marked earlier (reports moves ++ later) move) hrest

/-! ### What is put off is newer than what is kept, and that is newer than what was shown -/

namespace Watch

/-- Every mark that was shown is below `n`. -/
def Below (n : ℕ) (m : Watch τ) : Prop := ∀ p ∈ m.shown, ∀ i, p.2.mark? = some i → i < n

/-- Every mark is below `n`, but for that of the report put off. -/
structure Behind (n : ℕ) (m : Watch τ) : Prop where
  shown : m.Below n
  status : ∀ i, m.status.mark? = some i → i < n
  fallback : ∀ s, m.fallback = some s → ∀ i, s.mark? = some i → i < n

/-- Every mark is below `n`; no mark that was shown is above that of the status on show or of the
fallback, and the report put off is marked above them all. -/
structure InOrder (n : ℕ) (m : Watch τ) : Prop where
  behind : m.Behind n
  status : ∀ i, m.status.mark? = some i → m.Below (i + 1)
  fallback : ∀ s, m.fallback = some s → ∀ i, s.mark? = some i → m.Below (i + 1)
  deferred : ∀ s t, m.deferred = some (s, t) → ∃ k, s.mark? = some k ∧ k < n ∧ m.Behind k

variable {m : Watch τ} {n k : ℕ} {s : Status} {t : τ}

theorem Below.mono (h : m.Below n) (hk : n ≤ k) : m.Below k :=
  fun p hp i hi => (h p hp i hi).trans_le hk

theorem Below.commit (h : m.Below n) (hs : ∀ i, s.mark? = some i → i < n) :
    (m.commit s).Below n := by
  intro p hp
  rcases List.mem_cons.mp hp with rfl | hp
  · exact hs
  · exact h p hp

theorem Behind.mono (h : m.Behind n) (hk : n ≤ k) : m.Behind k where
  shown := h.shown.mono hk
  status i hi := (h.status i hi).trans_le hk
  fallback s hs i hi := (h.fallback s hs i hi).trans_le hk

theorem Behind.commit (h : m.Behind n) (hs : ∀ i, s.mark? = some i → i < n) :
    (m.commit s).Behind n :=
  { h with shown := h.shown.commit hs, status := hs }

theorem Behind.keep (h : m.Behind n) (hs : ∀ i, s.mark? = some i → i < n) :
    Behind n { m with fallback := some s } :=
  { h with
    fallback := fun s' hs' => by
      obtain rfl := Option.some.inj hs'
      exact hs }

theorem Behind.drop (h : m.Behind n) : m.drop.Behind n :=
  { h with fallback := fun _ h => by contradiction }

namespace InOrder

theorem start (now : τ) : InOrder 0 (Watch.start now) where
  behind := ⟨by simp [Below, Watch.start], by simp [Watch.start, Status.mark?_bare],
    by simp [Watch.start]⟩
  status := by simp [Watch.start, Status.mark?_bare]
  fallback := by simp [Watch.start]
  deferred := by simp [Watch.start]

/-- The order is no matter of times. -/
theorem retime (h : m.InOrder n) (now lastActed : τ) (deadline : Option τ) (reportFirst : Bool) :
    InOrder n { m with now, lastActed, deadline, reportFirst } where
  behind := { h.behind with }
  status := h.status
  fallback := h.fallback
  deferred s t hs := by
    obtain ⟨i, hi, hlt, hb⟩ := h.deferred s t hs
    exact ⟨i, hi, hlt, { hb with }⟩

theorem mono (h : m.InOrder n) (hk : n ≤ k) : m.InOrder k where
  behind := h.behind.mono hk
  status := h.status
  fallback := h.fallback
  deferred s t hs := by
    obtain ⟨i, hi, hlt, hb⟩ := h.deferred s t hs
    exact ⟨i, hi, hlt.trans_le hk, hb⟩

theorem drop (h : m.InOrder n) : m.drop.InOrder n where
  behind := h.behind.drop
  status := h.status
  fallback _ hs := by contradiction
  deferred s t hs := by
    obtain ⟨i, hi, hlt, hb⟩ := h.deferred s t hs
    exact ⟨i, hi, hlt, hb.drop⟩

/-- A status without a mark is shown in any order. -/
theorem commit_bare (h : m.InOrder n) (hs : s.mark? = none) : (m.commit s).InOrder n := by
  have hs : ∀ k i, s.mark? = some i → i < k := fun k i hi => by
    rw [hs] at hi
    contradiction
  refine ⟨h.behind.commit (hs n), fun i hi => ?_, fun f hf i hi => ?_, fun f t hf => ?_⟩
  · exact absurd (hs i i hi) (lt_irrefl i)
  · exact (h.fallback f hf i hi).commit (hs _)
  · obtain ⟨i, hi, hlt, hb⟩ := h.deferred f t hf
    exact ⟨i, hi, hlt, hb.commit (hs i)⟩

/-- What is on show may be kept. -/
theorem keep_status (h : m.InOrder n) : InOrder n { m with fallback := some m.status } where
  behind := h.behind.keep h.behind.status
  status := h.status
  fallback s hs := by
    obtain rfl := Option.some.inj hs
    exact h.status
  deferred s t hs := by
    obtain ⟨i, hi, hlt, hb⟩ := h.deferred s t hs
    exact ⟨i, hi, hlt, hb.keep hb.status⟩

/-- A report with nothing put off may be kept if nothing shown is newer. -/
theorem keep (h : m.InOrder n) (hd : m.deferred = none) (hs : s.mark? = some k) (hk : k < n)
    (hb : m.Below (k + 1)) : InOrder n { m with fallback := some s } where
  behind := h.behind.keep fun i hi => by
    rw [hs] at hi
    exact Option.some.inj hi ▸ hk
  status := h.status
  fallback s' hs' i hi := by
    obtain rfl := Option.some.inj hs'
    rw [hs] at hi
    exact Option.some.inj hi ▸ hb
  deferred s t hs := by
    rw [show m.deferred = none from hd] at hs
    contradiction

/-- What nothing shown is newer than may be shown if nothing else is kept and what is put off is
newer. -/
theorem commit (h : m.InOrder n) (hf : m.fallback = none)
    (hs : ∀ i, s.mark? = some i → i < n ∧ m.Below (i + 1))
    (hd : ∀ f t, m.deferred = some (f, t) → ∀ k, f.mark? = some k →
      ∀ i, s.mark? = some i → i < k) : (m.commit s).InOrder n where
  behind := h.behind.commit fun i hi => (hs i hi).1
  status i hi := (hs i hi).2.commit fun j hj => by
    obtain rfl := Option.some.inj (hi.symm.trans hj)
    exact Nat.lt_succ_self i
  fallback f hf' := by
    rw [show m.fallback = some f from hf'] at hf
    contradiction
  deferred f t hft := by
    obtain ⟨k, hk, hlt, hb⟩ := h.deferred f t hft
    exact ⟨k, hk, hlt, hb.commit (hd f t hft k hk)⟩

theorem giveUp (h : m.InOrder n) : m.giveUp.InOrder n := by
  unfold Watch.giveUp
  cases hf : m.fallback with
  | none => exact h
  | some f =>
    have h₁ : InOrder n { m with fallback := none } := h.drop.retime m.now _ m.deadline _
    refine h₁.commit rfl ?_ fun s t hs k hk => ?_
    · exact fun i hi => ⟨h.behind.fallback f hf i hi, h.fallback f hf i hi⟩
    · obtain ⟨j, hj, -, hb⟩ := h.deferred s t hs
      obtain rfl := Option.some.inj (hj.symm.trans hk)
      exact hb.fallback f hf

variable [AddCommGroup τ] {d : Delays τ}

theorem assume (h : m.InOrder n) (a : Assumption) : (m.assume d a).InOrder n := by
  unfold Watch.assume
  split
  · exact h
  · exact (h.keep_status.commit_bare a.mark?_status).retime ..

/-- A report that is newer than all that is on show or behind it may be shown. -/
theorem reveal (h : m.InOrder n) (hd : m.deferred = none) (hf : m.fallback = none)
    (hs : s.mark? = some k) (hk : k < n) (hb : m.Behind k) : (m.reveal d s).InOrder n := by
  have hlt : ∀ i, s.mark? = some i → i < n ∧ m.Below (i + 1) := fun i hi => by
    obtain rfl := Option.some.inj (hs.symm.trans hi)
    exact ⟨hk, hb.shown.mono (Nat.le_succ k)⟩
  unfold Watch.reveal
  split
  · refine (h.assume .connecting).keep ?_ hs hk ?_
    · unfold Watch.assume
      split <;> exact hd
    · unfold Watch.assume
      split
      · exact (hlt k hs).2
      · have hkeep : Below (k + 1) { m with fallback := some m.status } := (hlt k hs).2
        refine hkeep.commit fun i hi => ?_
        rw [Assumption.mark?_status] at hi
        contradiction
  · refine h.commit hf hlt fun f t hft => ?_
    rw [hd] at hft
    contradiction

/-- The same for passing the quiet window. -/
theorem pass (h : m.InOrder n) (hs : s.mark? = some k) (hk : k < n) (hb : m.Behind k) :
    (m.pass d s).InOrder n := by
  have h₀ : InOrder n { m with deferred := none, lastActed := m.now } :=
    { h with behind := { h.behind with }, deferred := by simp }
  have hb₀ : Behind k { m with deferred := none, lastActed := m.now } := { hb with }
  unfold Watch.pass Watch.act
  split
  · rename_i hf
    exact h₀.reveal rfl (by simpa using hf) hs hk hb₀
  · split
    · exact h₀.drop.reveal rfl rfl hs hk hb₀.drop
    · exact h₀.keep rfl hs hk (hb₀.shown.mono (Nat.le_succ k))

variable [LinearOrder τ]

omit [AddCommGroup τ] in
theorem wait (h : m.InOrder n) (t : τ) : (m.wait t).InOrder n := h.retime ..

/-- A report that comes in is newer than all others. -/
theorem receive (h : m.InOrder n) (hs : s.mark? = some n) : (m.receive d s).InOrder (n + 1) := by
  have h₁ := h.mono (Nat.le_succ n)
  unfold Watch.receive
  split
  · exact h₁
  · split
    · refine { h₁ with behind := { h₁.behind with }, deferred := fun s' t hs' => ?_ }
      obtain ⟨rfl, -⟩ := Prod.mk.inj (Option.some.inj hs')
      exact ⟨n, hs, Nat.lt_succ_self n, { h.behind with }⟩
    · exact h₁.pass hs (Nat.lt_succ_self n) h.behind

theorem ring (h : m.InOrder n) {b : Bell} (hn : m.next? = some (t, b)) :
    (m.ring d t b).InOrder n := by
  cases b with
  | report s =>
    obtain ⟨k, hk, hlt, hb⟩ := h.deferred s t (deferred_of_next? hn)
    exact (h.wait t).pass hk hlt { hb with }
  | giveUp => exact giveUp ((h.wait t).retime ..)

/-- **One move keeps the order.** -/
theorem meet (h : m.InOrder n) (move : Move τ) :
    (m.meet d (move.marked n)).InOrder (n + (Course.reports [move]).length) := by
  cases move with
  | report s => exact h.receive (s.mark?_marked n)
  | assume a => exact h.assume a
  | reset => exact h.drop
  | ring =>
    show (m.meet d .ring).InOrder n
    rw [Watch.meet]
    split
    · exact h
    · exact h.ring ‹_›
  | wait time => exact h.wait time

end InOrder

/-! ### What a move shows -/

variable [AddCommGroup τ] {d : Delays τ}

theorem reveal_shown (hf : m.fallback = none) (s : Status) :
    (m.reveal d s).fallback = none ∧ (m.reveal d s).shown = (m.now, s) :: m.shown ∨
    (m.reveal d s).fallback = some s ∧ ((m.reveal d s).shown = m.shown ∨
      (m.reveal d s).shown = (m.now, Assumption.connecting.status) :: m.shown) := by
  unfold Watch.reveal
  split
  · refine .inr ⟨rfl, ?_⟩
    unfold Watch.assume
    split
    · exact .inl rfl
    · exact .inr rfl
  · exact .inl ⟨hf, rfl⟩

/-- A report that passes is shown or kept; if it is kept, nothing but an assumption is shown. -/
theorem pass_shown (m : Watch τ) (s : Status) :
    (m.pass d s).fallback = none ∧ (m.pass d s).shown = (m.now, s) :: m.shown ∨
    (m.pass d s).fallback = some s ∧ ((m.pass d s).shown = m.shown ∨
      (m.pass d s).shown = (m.now, Assumption.connecting.status) :: m.shown) := by
  unfold Watch.pass Watch.act
  split
  · rename_i hf
    exact reveal_shown (m := { m with deferred := none, lastActed := m.now })
      (Option.isNone_iff_eq_none.mp hf) s
  · split
    · exact reveal_shown (m := drop { m with deferred := none, lastActed := m.now }) rfl s
    · exact .inr ⟨rfl, .inl rfl⟩

variable [LinearOrder τ]

/-- Where a status comes from that a move shows: it is assumed, or a report that passes, or a
fallback whose assumption is given up. -/
inductive Source (d : Delays τ) (m : Watch τ) : Move τ → Status → Prop
  | assumed (move : Move τ) (a : Assumption) : Source d m move a.status
  | passed {move : Move τ} {s : Status} (h : m.passes d move = some s) : Source d m move s
  | givenUp {u : τ} {s : Status} (hn : m.next? = some (u, .giveUp)) (hf : m.fallback = some s) :
    Source d m .ring s

/-- A move shows at most one status. -/
theorem shown_meet (m : Watch τ) (move : Move τ) : (m.meet d move).shown = m.shown ∨
    ∃ t s, (m.meet d move).shown = (t, s) :: m.shown ∧ Source d m move s := by
  cases hl : move.intervenes with
  | true =>
    cases move <;> simp only [Move.intervenes, Bool.false_eq_true] at hl
    case assume a =>
      rw [Watch.meet, Watch.assume]
      split
      · exact .inl rfl
      · exact .inr ⟨_, _, rfl, .assumed ..⟩
    case reset => exact .inl rfl
  | false =>
    cases hpass : m.passes d move with
    | some s =>
      obtain ⟨t, he⟩ := meet_of_passes hpass
      rw [he]
      obtain ⟨-, h⟩ | ⟨-, h | h⟩ := pass_shown (d := d) (m.wait t) s <;> rw [h]
      · exact .inr ⟨_, _, rfl, .passed hpass⟩
      · exact .inl rfl
      · exact .inr ⟨_, _, rfl, .assumed ..⟩
    | none =>
      obtain ⟨rfl, t, hn⟩ | ⟨-, -, -, hshown⟩ := meet_of_not_passes hl hpass
      · cases hf : m.fallback with
        | none =>
          rw [Watch.meet, hn]
          exact .inl (by simp [Watch.ring, Watch.giveUp, Watch.wait, hf])
        | some s =>
          obtain ⟨-, -, -, -, hshown⟩ := meet_of_giveUp (d := d) hf hn
          exact .inr ⟨_, s, hshown, .givenUp hn hf⟩
      · exact .inl hshown

/-- A report that passes is newer than all that is on show or behind it. -/
theorem InOrder.behind_of_passes (h : m.InOrder n) {move : Move τ}
    (hpass : m.passes d (move.marked n) = some s) : ∃ k, s.mark? = some k ∧ m.Behind k := by
  cases move <;> simp only [Move.marked, Watch.passes, reduceCtorEq] at hpass
  case report s' =>
    split at hpass
    · contradiction
    · obtain rfl := Option.some.inj hpass
      exact ⟨n, s'.mark?_marked n, h.behind⟩
  case ring =>
    split at hpass
    · rename_i t s' hn
      obtain rfl := Option.some.inj hpass
      obtain ⟨k, hk, -, hb⟩ := h.deferred s' t (deferred_of_next? hn)
      exact ⟨k, hk, hb⟩
    · contradiction

/-! ### Courses of marked reports -/

variable (d) in
/-- The watch after a course in which the reports are marked. -/
def afterMarked (now : τ) (moves : List (Move τ)) : Watch τ :=
  (Watch.start now).meetAll d (Course.marked 0 moves)

variable {now : τ} {moves : List (Move τ)} {move : Move τ}

theorem afterMarked_append : afterMarked d now (moves ++ [move]) =
    (afterMarked d now moves).meet d (move.marked (Course.reports moves).length) := by
  rw [afterMarked, Course.marked_append, meetAll_append, Nat.zero_add]
  rfl

variable (d now) in
theorem inOrder_afterMarked (moves : List (Move τ)) :
    (afterMarked d now moves).InOrder (Course.reports moves).length := by
  induction moves using List.reverseRecOn with
  | nil => exact .start now
  | append_singleton moves move ih =>
    rw [afterMarked_append, Course.reports_append, List.length_append]
    exact ih.meet move

variable (d now) in
/-- What is marked makes no difference but for details. -/
theorem alike_afterMarked (moves rest : List (Move τ)) :
    Alike (Status.StandsFor (Course.reports (moves ++ rest)))
      ((Watch.start now).meetAll d moves) (afterMarked d now moves) := by
  have hR := Status.likeness_standsFor (Course.reports (moves ++ rest))
  refine (Alike.start hR now).meetAll hR ?_
  rw [Course.reports_append]
  exact Course.alike_marked [] (Course.reports rest) moves

variable (d) in
/-- Report number `j` was on show when the user last made an assumption in its place, and no report
has passed the quiet window since. -/
def Held (now : τ) (moves : List (Move τ)) (j : ℕ) : Prop :=
  ∃ before a since, moves = before ++ .assume a :: since ∧
    (afterMarked d now before).status.mark? = some j ∧
    (∀ move ∈ since, move.intervenes = false) ∧
    ((Watch.start now).meetAll d (before ++ [.assume a])).passedAll d since = []

theorem Held.append {j : ℕ} (h : Held d now moves j) (hl : move.intervenes = false)
    (hpass : ((Watch.start now).meetAll d moves).passes d move = none) :
    Held d now (moves ++ [move]) j := by
  obtain ⟨before, a, since, rfl, hj, hleft, hnone⟩ := h
  refine ⟨before, a, since ++ [move], by simp, hj, fun next hn => ?_, ?_⟩
  · rcases List.mem_append.mp hn with hn | hn
    · exact hleft next hn
    · exact List.mem_singleton.mp hn ▸ hl
  · rw [List.append_cons, meetAll_append] at hpass
    rw [passedAll_append, hnone, passedAll, hpass]
    rfl

/-- A fallback is newer than all that was shown, or it was on show when an assumption took its
place. -/
theorem below_or_held {j : ℕ} (hf : (afterMarked d now moves).fallback = some s)
    (hs : s.mark? = some j) : (afterMarked d now moves).Below j ∨ Held d now moves j := by
  induction moves using List.reverseRecOn generalizing s j with
  | nil => simp [afterMarked, Course.marked, Watch.meetAll, Watch.start] at hf
  | append_singleton moves move ih =>
    have horder := inOrder_afterMarked d now moves
    have halike := alike_afterMarked d now moves [move]
    rw [afterMarked_append] at hf ⊢
    cases hl : move.intervenes with
    | true =>
      cases move <;> simp only [Move.intervenes, Bool.false_eq_true] at hl
      case assume a =>
        have hc : (afterMarked d now moves).closed = false := meetAll_closed _
        simp only [Move.marked, Watch.meet, Watch.assume, hc] at hf
        obtain rfl := Option.some.inj hf
        exact .inr ⟨moves, a, [], rfl, hs, by simp, rfl⟩
      case reset => simp [Move.marked, Watch.meet, Watch.drop] at hf
    | false =>
      have hl' := (move.intervenes_marked (Course.reports moves).length).trans hl
      generalize hmark : move.marked (Course.reports moves).length = mark at hf hl' ⊢
      cases hpass : (afterMarked d now moves).passes d mark with
      | some s' =>
        obtain ⟨t, he⟩ := meet_of_passes hpass
        obtain ⟨k, hk, hb⟩ := horder.behind_of_passes (hmark ▸ hpass)
        rw [he] at hf ⊢
        left
        obtain ⟨hnone, -⟩ | ⟨hkept, hshown⟩ :=
          pass_shown (d := d) ((afterMarked d now moves).wait t) s'
        · rw [hnone] at hf
          contradiction
        · obtain rfl := Option.some.inj (hkept.symm.trans hf)
          obtain rfl := Option.some.inj (hk.symm.trans hs)
          rw [Below]
          rcases hshown with hshown | hshown <;> rw [hshown]
          · exact hb.shown
          · exact Below.commit (m := (afterMarked d now moves).wait t) hb.shown
              fun i hi => by cases hi
      | none =>
        obtain ⟨hring, t, hn⟩ | ⟨-, hfallback, -, hshown⟩ := meet_of_not_passes hl' hpass
        · rw [hring, fallback_of_giveUp hn] at hf
          contradiction
        · rw [hfallback] at hf
          rcases ih hf hs with hb | hheld
          · left
            rw [Below, hshown]
            exact hb
          · refine .inr (hheld.append hl ?_)
            have hmove := Move.alike_marked (Course.reports moves) [] move
            rw [List.append_nil, ← Course.reports_append, hmark] at hmove
            have hrel := halike.passes (d := d) hmove
            rw [hpass] at hrel
            generalize ((Watch.start now).meetAll d moves).passes d move = passes at hrel
            cases hrel
            rfl

variable (d now) in
/-- **What a move shows is no older than what was shown before.** It is newer, unless it was held
while an assumption was on show. -/
theorem shown_afterMarked (moves : List (Move τ)) (move : Move τ) :
    (afterMarked d now (moves ++ [move])).shown = (afterMarked d now moves).shown ∨
    ∃ t s, (afterMarked d now (moves ++ [move])).shown = (t, s) :: (afterMarked d now moves).shown ∧
      ∀ j, s.mark? = some j → (afterMarked d now moves).Below (j + 1) ∧
        ((afterMarked d now moves).Below j ∨ Held d now moves j ∧ move = .ring ∧
          ∃ u, ((Watch.start now).meetAll d moves).next? = some (u, .giveUp)) := by
  have horder := inOrder_afterMarked d now moves
  rw [afterMarked_append]
  obtain hshown | ⟨t, s, hshown, hsource⟩ :=
    shown_meet (d := d) (afterMarked d now moves) (move.marked (Course.reports moves).length)
  · exact .inl hshown
  · refine .inr ⟨t, s, hshown, fun j hj => ?_⟩
    generalize hmarked : move.marked (Course.reports moves).length = mark at hsource
    cases hsource with
    | assumed _ a =>
      rw [a.mark?_status] at hj
      contradiction
    | passed hpass =>
      rw [← hmarked] at hpass
      obtain ⟨k, hk, hb⟩ := horder.behind_of_passes hpass
      obtain rfl := Option.some.inj (hk.symm.trans hj)
      exact ⟨hb.shown.mono (Nat.le_succ k), .inl hb.shown⟩
    | givenUp hn hf =>
      rename_i u
      refine ⟨horder.fallback s hf j hj, (below_or_held hf hj).imp_right fun h => ⟨h, ?_, u, ?_⟩⟩
      · cases move <;> cases hmarked
        rfl
      · obtain ⟨-, hn'⟩ | ⟨_, _, _, -, -, hn'⟩ | ⟨v, hv, hn'⟩ :=
          (alike_afterMarked d now moves []).next? <;> rw [hn] at hn'
        · contradiction
        · cases hn'
        · cases hn'
          exact hv

end Watch

/-! ### Sessions -/

section Sessions

variable [AddCommGroup τ] [LinearOrder τ] [IsOrderedAddMonoid τ]

namespace Course

/-- Where the statuses come from that a course shows, the newest first: the numbers of the reports,
in order of receipt and from zero on, or nothing for a status that is assumed. It is what is shown
if each report carries its number in place of its details. -/
def origins (out : Outside τ ο) (moves : List (Move τ)) (w : World τ ο) : List (Option ℕ) :=
  (Replay.commits (run out (marked 0 moves) w).rest.events).map fun p => p.2.mark?

/-- Where the status on show after a course comes from. -/
def onShow (out : Outside τ ο) (moves : List (Move τ)) (w : World τ ο) : Option ℕ :=
  (run out (marked 0 moves) w).rest.view.status.mark?

/-- After a course the call that gives an assumption up fires, report `j` was on show when the user
made the assumption, and no report has passed the quiet window since. -/
def Reverts (out : Outside τ ο) (moves : List (Move τ)) (next : Move τ) (j : ℕ)
    (w : World τ ο) : Prop :=
  (∃ t, next.fires (run out moves w) = some t ∧ t.call = .giveUp) ∧
    ∃ before a since, moves = before ++ .assume a :: since ∧ onShow out before w = some j ∧
      (∀ move ∈ since, move.intervenes = false) ∧
      passed out since (run out (before ++ [.assume a]) w) = []

/-- The last move of a course shows nothing, or what is not older than anything shown before; and
what was shown before already comes back when an assumption of the user is given up. -/
def ShowsInOrder (out : Outside τ ο) (before : List (Move τ)) (next : Move τ)
    (w : World τ ο) : Prop :=
  origins out (before ++ [next]) w = origins out before w ∨
    ∃ o, origins out (before ++ [next]) w = o :: origins out before w ∧
      ∀ j, o = some j → ∀ i, some i ∈ origins out before w →
        i ≤ j ∧ (i = j → Reverts out before next j w) ∧ ((∀ a, .assume a ∉ before) → i < j)

end Course

variable {fine : ο → Prop} {d : Delays τ} {w : World τ ο} {out : Outside τ ο} {now : τ}
  {moves before : List (Move τ)} {next : Move τ}

/-- A marked course runs as the course does. -/
theorem Matches.afterMarked (h : Matches fine d w (Watch.start now)) (hout : out.LooksOn fine)
    (hw : 0 < d.window) (hp : 0 < d.patience) (hposs : Course.Possible out moves w) :
    Matches fine d (Course.run out (Course.marked 0 moves) w) (Watch.afterMarked d now moves) := by
  have hR := Status.likeness_standsFor (Course.reports moves)
  have halike := Course.alike_marked [] [] moves
  rw [List.append_nil] at halike
  rw [h.possible_course_iff (.start now) hout hw hp,
    (Watch.Alike.start hR now).allowsAll_iff hR halike,
    ← h.possible_course_iff (.start now) hout hw hp] at hposs
  exact (h.course (.start now) hout hw hp hposs).1

theorem Matches.origins_eq (h : Matches fine d w (Watch.start now)) (hout : out.LooksOn fine)
    (hw : 0 < d.window) (hp : 0 < d.patience) (hposs : Course.Possible out moves w) :
    Course.origins out moves w =
      (Watch.afterMarked d now moves).shown.map fun p => p.2.mark? := by
  rw [Course.origins, (h.afterMarked hout hw hp hposs).shown]

/-- Each number tells which report was shown. -/
theorem Matches.forall₂_origins (h : Matches fine d w (Watch.start now)) (hout : out.LooksOn fine)
    (hw : 0 < d.window) (hp : 0 < d.patience) (hposs : Course.Possible out moves w) :
    List.Forall₂ (fun shown origin =>
        (∀ n, origin = some n → (Course.reports moves)[n]? = some shown.2) ∧
        (origin = none → ∃ c, shown.2 = .bare c))
      (Replay.commits (Course.run out moves w).rest.events) (Course.origins out moves w) := by
  have halike := Watch.alike_afterMarked d now moves []
  rw [List.append_nil] at halike
  rw [h.origins_eq hout hw hp hposs, (h.course (.start now) hout hw hp hposs).1.shown,
    List.forall₂_map_right_iff]
  exact halike.shown.imp fun p q hpq => ⟨hpq.2.report, fun hn => ⟨_, hpq.2.bare hn⟩⟩

/-- What is held, and then given up, reverts. -/
theorem Matches.reverts (h : Matches fine d w (Watch.start now)) (hout : out.LooksOn fine)
    (hw : 0 < d.window) (hp : 0 < d.patience) (hposs : Course.Possible out moves w) {j : ℕ} {u : τ}
    (hheld : Watch.Held d now moves j)
    (hn : ((Watch.start now).meetAll d moves).next? = some (u, .giveUp)) :
    Course.Reverts out moves .ring j w := by
  obtain ⟨t, hfires, hcall, -⟩ := (h.course (.start now) hout hw hp hposs).1.fires_giveUp hn
  obtain ⟨before, a, since, rfl, hj, hleft, hnone⟩ := hheld
  refine ⟨⟨t, hfires, hcall⟩, before, a, since, rfl, ?_, hleft, ?_⟩
  · have hbefore := (Course.possible_append.mp hposs).1
    rw [Course.onShow, (h.afterMarked hout hw hp hbefore).status, hj]
  · rw [List.append_cons, Course.possible_append] at hposs
    obtain ⟨h₁, hm₁⟩ := h.course (.start now) hout hw hp hposs.1
    rw [h₁.passed_eq hm₁ hout hw hp hposs.2, hnone]

theorem Matches.shows_in_order (h : Matches fine d w (Watch.start now)) (hout : out.LooksOn fine)
    (hw : 0 < d.window) (hp : 0 < d.patience)
    (hposs : Course.Possible out (before ++ [next]) w) : Course.ShowsInOrder out before next w := by
  have hbefore := (Course.possible_append.mp hposs).1
  unfold Course.ShowsInOrder
  rw [h.origins_eq hout hw hp hposs, h.origins_eq hout hw hp hbefore]
  obtain hshown | ⟨t, s, hshown, hs⟩ := Watch.shown_afterMarked d now before next
  · exact .inl (by rw [hshown])
  refine .inr ⟨s.mark?, by rw [hshown]; rfl, fun j hj i hi => ?_⟩
  obtain ⟨hle, hlt⟩ := hs j hj
  obtain ⟨p, hp', hmark⟩ := List.mem_map.mp hi
  have hreverts : i = j → Course.Reverts out before next j w := by
    rintro rfl
    obtain hlt | ⟨hheld, rfl, u, hu⟩ := hlt
    · exact absurd (hlt p hp' i hmark) (lt_irrefl i)
    · exact h.reverts hout hw hp hbefore hheld hu
  have hij : i ≤ j := Nat.lt_succ_iff.mp (hle p hp' i hmark)
  refine ⟨hij, hreverts, fun hnone => lt_of_le_of_ne hij fun heq => ?_⟩
  obtain ⟨-, before', a, since, rfl, -⟩ := hreverts heq
  exact hnone a (by simp)

/-- The reports that a course shows, by induction on the course: the newest is first, and without
assumptions of the user each is there once. -/
theorem Matches.origins_pairwise (h : Matches fine d w (Watch.start now)) (hout : out.LooksOn fine)
    (hw : 0 < d.window) (hp : 0 < d.patience) (hposs : Course.Possible out moves w) :
    (Course.origins out moves w).reduceOption.Pairwise (· ≥ ·) ∧
      ((∀ a, .assume a ∉ moves) → (Course.origins out moves w).reduceOption.Pairwise (· > ·)) := by
  induction moves using List.reverseRecOn with
  | nil =>
    have hnone : Course.origins out [] w = [] := by
      rw [h.origins_eq hout hw hp hposs]
      rfl
    rw [hnone]
    exact ⟨.nil, fun _ => .nil⟩
  | append_singleton before next ih =>
    obtain ⟨hle, hlt⟩ := ih (Course.possible_append.mp hposs).1
    replace hlt : (∀ a, .assume a ∉ before ++ [next]) →
        (Course.origins out before w).reduceOption.Pairwise (· > ·) :=
      fun hnone => hlt fun a ha => hnone a (List.mem_append_left _ ha)
    obtain hsame | ⟨_ | j, ho, hj⟩ := h.shows_in_order hout hw hp hposs
    · rw [hsame]
      exact ⟨hle, hlt⟩
    · rw [ho, List.reduceOption_cons_of_none]
      exact ⟨hle, hlt⟩
    · rw [ho, List.reduceOption_cons_of_some]
      refine ⟨.cons (fun i hi => ?_) hle, fun hnone => .cons (fun i hi => ?_) (hlt hnone)⟩
      · exact (hj j rfl i (List.reduceOption_mem_iff.mp hi)).1
      · refine (hj j rfl i (List.reduceOption_mem_iff.mp hi)).2.2 fun a ha => ?_
        exact hnone a (List.mem_append_left _ ha)

variable {host : Host τ σ}

/-- **Reports are shown in the order in which they came.** In any course the numbers tell where the
statuses shown come from. A move shows at most one status, and if that is report `j`, no later one
was shown before. Report `j` itself was shown before only if it comes back as the fallback of an
assumption that the user made while it was on show, with no report passing since. So without
assumptions of the user each report is shown at most once, in the order of receipt. (What a session
does is such a course: `Session.exists_course`.) -/
theorem Session.reports_in_order (hhost : host.LooksOn) (hw : 0 < d.window) (hp : 0 < d.patience)
    {fuel : ℕ} (hf : 0 < fuel) {client : Client σ} (hc : client.Undisturbed) (now : τ)
    (hposs : Course.Possible (outside host fuel) (before ++ [next]) (Session.start d now client)) :
    let out := outside host fuel
    let w := Session.start d now client
    List.Forall₂ (fun shown origin =>
        (∀ n, origin = some n → (Course.reports (before ++ [next]))[n]? = some shown.2) ∧
        (origin = none → ∃ c, shown.2 = .bare c))
      (Replay.commits (Course.run out (before ++ [next]) w).rest.events)
      (Course.origins out (before ++ [next]) w) ∧
    (Course.origins out (before ++ [next]) w = Course.origins out before w ∨
      ∃ o, Course.origins out (before ++ [next]) w = o :: Course.origins out before w ∧
        ∀ j, o = some j → ∀ i, some i ∈ Course.origins out before w →
          i ≤ j ∧ (i = j → Course.Reverts out before next j w) ∧
          ((∀ a, .assume a ∉ before) → i < j)) := by
  intro out w
  obtain ⟨n, rfl⟩ : ∃ n, fuel = n + 1 := ⟨fuel - 1, by omega⟩
  have hout : out.LooksOn Client.Undisturbed := outside_looksOn hhost n
  have h : Matches Client.Undisturbed d w (Watch.start now) := .start client hc now
  exact ⟨h.forall₂_origins hout hw hp hposs, h.shows_in_order hout hw hp hposs⟩

/-- **The reports of a session are shown in the order in which they came.** Operations that do not
close the view do to it what a course does, and the course tells which of their reports were shown:
none after a newer one, and none twice in a row unless it comes back when an assumption of the user
is given up. So without assumptions of the user each report is shown once at most. -/
theorem Session.exists_origins (hhost : host.LooksOn) (hw : 0 < d.window) (hp : 0 < d.patience)
    {fuel : ℕ} (hf : 4 ≤ fuel) {client : Client σ} (hc : client.Undisturbed) (now : τ)
    {ops : List (Op τ)} (hops : ∀ op ∈ ops, op.onView ∧ op.closes = false) :
    let out := outside host fuel
    let w := Session.start d now client
    let asked := ops.flatMap Op.asks
    ∃ course, course.filter Move.isAsked = asked ∧ Course.Possible out course w ∧
      Session.after host fuel ops w = Course.run out course w ∧
      List.Forall₂ (fun shown origin =>
          (∀ n, origin = some n → (Course.reports asked)[n]? = some shown.2) ∧
          (origin = none → ∃ c, shown.2 = .bare c))
        (Replay.commits (Session.after host fuel ops w).rest.events)
        (Course.origins out course w) ∧
      (∀ before next after, course = before ++ next :: after →
        Course.ShowsInOrder out before next w) ∧
      (Course.origins out course w).reduceOption.Pairwise (· ≥ ·) ∧
      ((∀ a, .assume a ∉ asked) → (Course.origins out course w).reduceOption.Pairwise (· > ·)) := by
  intro out w asked
  obtain ⟨course, hasks, hposs, hafter⟩ := Session.exists_course hhost hw hp hf hc now hops
  obtain ⟨n, rfl⟩ : ∃ n, fuel = n + 1 := ⟨fuel - 1, by omega⟩
  have hout : out.LooksOn Client.Undisturbed := outside_looksOn hhost n
  have h : Matches Client.Undisturbed d w (Watch.start now) := .start client hc now
  have hreports : Course.reports asked = Course.reports course := by
    rw [← Course.reports_filter course, hasks]
  obtain ⟨hle, hlt⟩ := h.origins_pairwise hout hw hp hposs
  refine ⟨course, hasks, hposs, hafter, ?_, fun before next after hcourse => ?_, hle,
    fun hnone => ?_⟩
  · rw [hafter, hreports]
    exact h.forall₂_origins hout hw hp hposs
  · rw [hcourse, List.append_cons] at hposs
    exact h.shows_in_order hout hw hp (Course.possible_append.mp hposs).1
  · refine hlt fun a ha => hnone a ?_
    have hasked : .assume a ∈ course.filter Move.isAsked := List.mem_filter.mpr ⟨ha, rfl⟩
    rwa [hasks] at hasked

end Sessions

/-- A report that is shown again when the disconnect that the user expects does not come. -/
theorem Session.reports_in_order_reverting :
    let out := outside (τ := ℤ) Replay.silent 1
    let w := Session.start ⟨150, 3000⟩ 0 { memory := () }
    let before : List (Move ℤ) := [.wait 200, .report (.bare .connected), .assume .disconnecting]
    Course.origins out (before ++ [.ring]) w = [some 0, none, some 0] ∧
      Course.Reverts out before .ring 0 w := by
  intro out w before
  have hposs : Course.Possible out (before ++ [.ring]) w :=
    Course.possible_append.mpr ⟨⟨rfl, trivial, trivial, trivial⟩, Option.some_ne_none _, trivial⟩
  have hall : Course.origins out (before ++ [.ring]) w = [some 0, none, some 0] := rfl
  have hbefore : Course.origins out before w = [none, some 0] := rfl
  obtain ⟨-, hsame | ⟨o, ho, hj⟩⟩ := Session.reports_in_order Replay.silent_looksOn (by decide)
    (by decide) (by decide) (Client.undisturbed_alone ()) 0 hposs
  · rw [hall, hbefore] at hsame
    contradiction
  · rw [hall, hbefore] at ho
    obtain rfl := (List.cons.inj ho).1
    exact ⟨hall, (hj 0 rfl 0 (by rw [hbefore]; simp)).2.1 rfl⟩

end TunnelView
