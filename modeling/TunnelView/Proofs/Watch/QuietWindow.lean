import Mathlib.Tactic.Tauto
import TunnelView.Proofs.Invariant
import TunnelView.Proofs.Watch.Course

/-!
# What the quiet window of a watch lets through

At any point of a course, what the quiet window will let through is set: the report that is put off,
if the clock gets to its deadline before the next report comes in, and then what a trailing-edge
filter makes of the reports to come (`Watch.expected`). No assumption has a part in it. Each move
leaves as much to be expected as before, less what it lets through, as long as no report comes in
while one that was put off is due.

Key definitions: `trailing`, `Watch.arrivals`, `Watch.processed`, `Watch.Timely`, `Watch.expected`.
Key theorems: `Watch.processed_eq`, `Watch.Sound.processed_spaced`, `Watch.processed_report`.
-/

namespace TunnelView

variable {τ : Type}

/-- The report that comes in by a move. -/
def Move.reported? : Move τ → Option Status
  | .report s => some s
  | _ => none

theorem Move.isAsked_of_reported {move : Move τ} (h : move.reported? ≠ none) : move.isAsked := by
  cases move <;> first | rfl | contradiction

theorem Move.eq_report {move : Move τ} {s : Status} (h : move.reported? = some s) :
    move = .report s := by
  cases move <;> simp_all [Move.reported?]

/-- What a trailing-edge filter lets through, and when. An item passes at once if the filter is not
busy with an earlier one and the window has passed since the last that passed. Otherwise it passes a
window later if neither the next item nor the end comes before that, and else keeps the filter busy.
-/
def trailing {α : Type} [Add τ] [LE τ] [DecidableLE τ] (window ending : τ) :
    Bool → τ → List (τ × α) → List (τ × α)
  | _, _, [] => []
  | busy, last, (t, a) :: rest =>
    if busy = false ∧ last + window ≤ t then (t, a) :: trailing window ending false t rest
    else if t + window ≤ (rest.head?.map Prod.fst).getD ending then
      (t + window, a) :: trailing window ending false (t + window) rest
    else trailing window ending true last rest

namespace Watch

variable [LinearOrder τ]

/-- Whether a report that was put off is due. -/
def Overdue (m : Watch τ) : Prop := ∃ s t, m.deferred = some (s, t) ∧ t ≤ m.now

variable [AddCommGroup τ]

/-- The reports that come in in a course, in order, each with its time. -/
def arrivals (d : Delays τ) : List (Move τ) → Watch τ → List (τ × Status)
  | [], _ => []
  | move :: moves, m => (move.reported?.map (m.now, ·)).toList ++ arrivals d moves (m.meet d move)

/-- The reports that pass the quiet window in a course, in order, each with the time when it is
acted on. -/
def processed (d : Delays τ) : List (Move τ) → Watch τ → List (τ × Status)
  | [], _ => []
  | move :: moves, m =>
    ((m.passes d move).map ((m.meet d move).now, ·)).toList ++ processed d moves (m.meet d move)

/-- Whether no report comes in, and the course does not end, while one that was put off is due. -/
def Timely (d : Delays τ) : List (Move τ) → Watch τ → Prop
  | [], m => ¬m.Overdue
  | move :: moves, m => (move.reported?.isSome → ¬m.Overdue) ∧ Timely d moves (m.meet d move)

variable {d : Delays τ} {m : Watch τ} {move : Move τ} {moves : List (Move τ)} {s : Status}

omit [LinearOrder τ] in
theorem pass_lastActed (s : Status) (m : Watch τ) : (m.pass d s).lastActed = m.now := by
  unfold pass act reveal assume
  split_ifs <;> rfl

omit [LinearOrder τ] [AddCommGroup τ] in
theorem giveUp_lastActed (m : Watch τ) : m.giveUp.lastActed = m.lastActed := by
  unfold giveUp
  split <;> rfl

theorem now_le_meet (d : Delays τ) (m : Watch τ) (move : Move τ) : m.now ≤ (m.meet d move).now := by
  cases move with
  | report s => exact (receive_now s m).ge
  | assume a => exact (assume_now a m).ge
  | reset => exact le_rfl
  | ring =>
    rw [meet]
    split
    · exact le_rfl
    · rw [ring_now]
      exact le_max_left ..
  | wait time => exact le_max_left ..

/-- Neither the next report nor the end is past. -/
theorem now_le_next (d : Delays τ) (moves : List (Move τ)) (m : Watch τ) :
    m.now ≤ ((m.arrivals d moves).head?.map Prod.fst).getD (m.meetAll d moves).now := by
  induction moves generalizing m with
  | nil => exact le_rfl
  | cons move moves ih =>
    rw [arrivals]
    cases move.reported? with
    | some s => exact le_rfl
    | none => exact (now_le_meet d m move).trans (ih _)

/-- A move that brings no report and lets none pass leaves the quiet window as it is. -/
theorem meet_of_quiet (hr : move.reported? = none) (hpass : m.passes d move = none) :
    (m.meet d move).deferred = m.deferred ∧ (m.meet d move).lastActed = m.lastActed := by
  cases move with
  | report s => contradiction
  | assume a =>
    rw [meet, Watch.assume]
    split <;> exact ⟨rfl, rfl⟩
  | reset => exact ⟨rfl, rfl⟩
  | ring =>
    rcases hn : m.next? with _ | ⟨t, s | _⟩
    · rw [meet, hn]
      exact ⟨rfl, rfl⟩
    · simp [passes, hn] at hpass
    · rw [meet, hn]
      exact ⟨giveUp_deferred _, giveUp_lastActed _⟩
  | wait time => exact ⟨rfl, rfl⟩

/-- What the quiet window lets through from now on: the report that is put off, if the clock gets to
its deadline before the next report, and then what a trailing-edge filter does. -/
def expected (d : Delays τ) (ending : τ) (arrivals : List (τ × Status)) (m : Watch τ) :
    List (τ × Status) :=
  match m.deferred with
  | none => trailing d.window ending false m.lastActed arrivals
  | some (s, t) =>
    if t ≤ (arrivals.head?.map Prod.fst).getD ending then
      (t, s) :: trailing d.window ending false t arrivals
    else trailing d.window ending true m.lastActed arrivals

theorem expected_congr {m' : Watch τ} (hd : m'.deferred = m.deferred)
    (hl : m'.lastActed = m.lastActed) (ending : τ) (arrivals : List (τ × Status)) :
    m'.expected d ending arrivals = m.expected d ending arrivals := by
  rw [expected, expected, hd, hl]

variable [IsOrderedAddMonoid τ]

theorem tooSoon_iff : m.tooSoon d ↔ ¬(m.deferred = none ∧ m.lastActed + d.window ≤ m.now) := by
  have hgate : m.now - m.lastActed < d.window ↔ ¬m.lastActed + d.window ≤ m.now := by
    rw [not_le, sub_lt_iff_lt_add']
  rw [tooSoon, Bool.or_eq_true, decide_eq_true_eq, hgate, Option.isSome_iff_ne_none]
  tauto

/-- When a report passes, the window is over, and it is the last that was acted on. -/
theorem Sound.acted_of_passes (hm : m.Sound d) (h : m.passes d move = some s) :
    (m.meet d move).deferred = none ∧ (m.meet d move).lastActed = (m.meet d move).now ∧
      m.lastActed + d.window ≤ (m.meet d move).now := by
  obtain ⟨t, he⟩ := meet_of_passes h
  have hnow : (m.meet d move).now = (m.meet d move).lastActed := by
    rw [he, pass_lastActed, pass_now]
  refine ⟨by rw [he, pass_deferred], hnow.symm, ?_⟩
  cases move <;> simp only [passes, reduceCtorEq] at h
  case report s' =>
    have hsoon : ¬m.tooSoon d := fun hsoon => by simp [hsoon] at h
    have hgate : m.lastActed + d.window ≤ m.now := (not_not.mp (mt tooSoon_iff.mpr hsoon)).2
    exact hgate.trans (now_le_meet d m _)
  case ring =>
    split at h
    · rename_i t' s' hn
      obtain ⟨-, -, hgate⟩ := hm.deferred s' t' (deferred_of_next? hn)
      calc m.lastActed + d.window ≤ t' := hgate
        _ ≤ max m.now t' := le_max_right ..
        _ = (m.meet d .ring).now := by rw [Watch.meet, hn, ring_now]
    · contradiction

/-- A report that comes too soon takes the place of one that is not due yet. -/
theorem expected_putOff (hsoon : m.tooSoon d) (hlate : ¬m.Overdue) (ending : τ)
    (later : List (τ × Status)) : (m.putOff d s).expected d ending later =
      m.expected d ending ((m.now, s) :: later) := by
  have hgate := tooSoon_iff.mp hsoon
  rcases hd : m.deferred with _ | ⟨s', u⟩
  · have hearly : ¬m.lastActed + d.window ≤ m.now := fun h => hgate ⟨hd, h⟩
    simp [expected, putOff, trailing, hd, hearly]
  · have hdue : ¬u ≤ m.now := fun h => hlate ⟨s', u, hd, h⟩
    simp [expected, putOff, trailing, hd, hdue]

/-- A report that does not come too soon is acted on at once. -/
theorem expected_report (hsoon : ¬m.tooSoon d) (ending : τ) (later : List (τ × Status)) :
    m.expected d ending ((m.now, s) :: later) =
      (m.now, s) :: trailing d.window ending false m.now later := by
  obtain ⟨hd, hgate⟩ := not_not.mp (mt tooSoon_iff.mpr hsoon)
  simp [expected, trailing, hd, hgate]

omit [IsOrderedAddMonoid τ] in
/-- When the report that was put off passes, the clock is at its deadline. -/
theorem Sound.expected_ring (hm : m.Sound d) {t : τ} (hn : m.next? = some (t, .report s)) {ending : τ}
    {later : List (τ × Status)}
    (hnext : (m.meet d .ring).now ≤ (later.head?.map Prod.fst).getD ending) :
    (m.meet d .ring).now = t ∧
      m.expected d ending later = (t, s) :: trailing d.window ending false t later := by
  have hdeferred := deferred_of_next? hn
  have hnow : (m.meet d .ring).now = t := by
    rw [Watch.meet, hn, ring_now, max_eq_right (hm.deferred s t hdeferred).1]
  rw [hnow] at hnext
  refine ⟨hnow, ?_⟩
  rw [expected, hdeferred]
  exact if_pos hnext

/-- What is to be expected before a move is what the move lets through, and then what is to be
expected after it. -/
theorem Sound.expected_meet (hm : m.Sound d) (hc : m.closed = false)
    (hlate : move.reported?.isSome → ¬m.Overdue) {ending : τ} {later : List (τ × Status)}
    (hnext : (m.meet d move).now ≤ (later.head?.map Prod.fst).getD ending) :
    m.expected d ending ((move.reported?.map (m.now, ·)).toList ++ later) =
      ((m.passes d move).map ((m.meet d move).now, ·)).toList ++
        (m.meet d move).expected d ending later := by
  have hacted {s : Status} (hpass : m.passes d move = some s) :
      (m.meet d move).expected d ending later =
        trailing d.window ending false (m.meet d move).now later := by
    obtain ⟨hd, hl, -⟩ := hm.acted_of_passes hpass
    rw [expected, hd, hl]
  have hquiet (hr : move.reported? = none) (hpass : m.passes d move = none) :
      (m.meet d move).expected d ending later = m.expected d ending later := by
    obtain ⟨hd, hl⟩ := meet_of_quiet hr hpass
    exact expected_congr hd hl ending later
  cases move with
  | report s =>
    by_cases hsoon : m.tooSoon d
    · have hpass : m.passes d (.report s) = none := by simp [passes, hsoon]
      have hmeet : m.meet d (.report s) = m.putOff d s := by
        rw [Watch.meet, Watch.receive, hc, hsoon]
        rfl
      rw [hpass, hmeet]
      exact (expected_putOff hsoon (hlate rfl) ending later).symm
    · have hpass : m.passes d (.report s) = some s := by simp [passes, hc, hsoon]
      have hnow : (m.meet d (.report s)).now = m.now := receive_now s m
      rw [hacted hpass, hpass, hnow]
      exact expected_report hsoon ending later
  | ring =>
    rcases hn : m.next? with _ | ⟨t, s | _⟩
    · have hpass : m.passes d .ring = none := by simp [passes, hn]
      rw [hquiet rfl hpass, hpass]
      rfl
    · have hpass : m.passes d .ring = some s := by simp [passes, hn]
      obtain ⟨hnow, hcall⟩ := hm.expected_ring hn hnext
      rw [hacted hpass, hpass, hnow]
      exact hcall
    · have hpass : m.passes d .ring = none := by simp [passes, hn]
      rw [hquiet rfl hpass, hpass]
      rfl
  | assume a => exact (hquiet rfl rfl).symm
  | reset => exact (hquiet rfl rfl).symm
  | wait time => exact (hquiet rfl rfl).symm

/-- **The quiet window is a trailing-edge filter**, by induction on the course: what it lets through
from a state on is what is to be expected there. -/
theorem processed_eq (hm : m.Sound d) (hw : 0 < d.window) (hp : 0 < d.patience)
    (hc : m.closed = false) (ha : m.AllowsAll d moves) (ht : m.Timely d moves) :
    m.processed d moves = m.expected d (m.meetAll d moves).now (m.arrivals d moves) := by
  induction moves generalizing m with
  | nil =>
    rcases hd : m.deferred with _ | ⟨s, u⟩
    · simp [processed, arrivals, expected, hd, trailing]
    · have hlate : ¬u ≤ m.now := fun hu => ht ⟨s, u, hd, hu⟩
      simp [processed, arrivals, expected, meetAll, hd, hlate, trailing]
  | cons move moves ih =>
    have hopen : (m.meet d move).closed = false := (meet_closed move).trans hc
    have hrest := ih (hm.meet hw hp ha.1) hopen ha.2 ht.2
    have hstep := hm.expected_meet hc ht.1 (now_le_next d moves (m.meet d move))
    rw [processed, arrivals, hrest]
    exact hstep.symm

omit [IsOrderedAddMonoid τ] in
theorem lastActed_of_not_passes (hpass : m.passes d move = none) :
    (m.meet d move).lastActed = m.lastActed := by
  cases hr : move.reported? with
  | none => exact (meet_of_quiet hr hpass).2
  | some s =>
    obtain rfl := Move.eq_report hr
    have hs : m.closed ∨ m.tooSoon d := by
      by_contra hn
      simp_all [passes]
    rw [Watch.meet, Watch.receive]
    split
    · rfl
    · rw [if_pos (hs.resolve_left ‹_›)]
      rfl

/-- A view remembers when it last acted on a report. -/
theorem lastActed_eq (hm : m.Sound d) (hw : 0 < d.window) (hp : 0 < d.patience)
    (ha : m.AllowsAll d moves) : (m.meetAll d moves).lastActed =
      ((m.processed d moves).map Prod.fst).getLastD m.lastActed := by
  induction moves generalizing m with
  | nil => rfl
  | cons move moves ih =>
    have hrest := ih (hm.meet hw hp ha.1) ha.2
    rw [processed, List.map_append]
    refine hrest.trans ?_
    cases hpass : m.passes d move with
    | none => rw [lastActed_of_not_passes hpass]; rfl
    | some s =>
      rw [(hm.acted_of_passes hpass).2.1]
      exact (List.getLastD_cons ..).symm

/-- No two reports are acted on within a window. -/
theorem Sound.processed_spaced (hm : m.Sound d) (hw : 0 < d.window) (hp : 0 < d.patience)
    (ha : m.AllowsAll d moves) : (∀ p ∈ m.processed d moves, m.lastActed + d.window ≤ p.1) ∧
      (m.processed d moves).Pairwise fun p q => p.1 + d.window ≤ q.1 := by
  induction moves generalizing m with
  | nil => exact ⟨by simp [processed], .nil⟩
  | cons move moves ih =>
    obtain ⟨hlast, hpairs⟩ := ih (hm.meet hw hp ha.1) ha.2
    rw [processed]
    cases hpass : m.passes d move with
    | none =>
      rw [lastActed_of_not_passes hpass] at hlast
      exact ⟨hlast, hpairs⟩
    | some s =>
      obtain ⟨-, hacted, hgate⟩ := hm.acted_of_passes hpass
      rw [hacted] at hlast
      refine ⟨fun p hp' => ?_, List.pairwise_cons.mpr ⟨hlast, hpairs⟩⟩
      rcases List.mem_cons.mp hp' with rfl | hp'
      · exact hgate
      · calc m.lastActed + d.window ≤ (m.meet d move).now := hgate
          _ ≤ (m.meet d move).now + d.window := le_add_of_nonneg_right hw.le
          _ ≤ p.1 := hlast p hp'

/-- Until the next report nothing but the last one is acted on. -/
theorem processed_report (hm : m.Sound d) (hw : 0 < d.window) (hp : 0 < d.patience)
    (hc : m.closed = false) {quiet : List (Move τ)} (hquiet : ∀ move ∈ quiet, move.reported? = none)
    (ha : m.AllowsAll d (.report s :: quiet)) (ht : m.Timely d (.report s :: quiet)) :
    m.processed d (.report s :: quiet) =
      if m.deferred = none ∧ m.lastActed + d.window ≤ m.now then [(m.now, s)]
      else if m.now + d.window ≤ (m.meetAll d (.report s :: quiet)).now then
        [(m.now + d.window, s)]
      else [] := by
  have hnone : ∀ m' : Watch τ, m'.arrivals d quiet = [] := fun m' => by
    clear ha ht
    induction quiet generalizing m' with
    | nil => rfl
    | cons move quiet ih =>
      rw [arrivals, hquiet move (by simp), ih fun next hn => hquiet next (by simp [hn])]
      rfl
  have harrivals : m.arrivals d (.report s :: quiet) = [(m.now, s)] := by
    rw [arrivals, hnone]
    rfl
  rw [processed_eq hm hw hp hc ha ht, harrivals]
  generalize (m.meetAll d (.report s :: quiet)).now = ending
  rcases hd : m.deferred with _ | ⟨s', u⟩
  · simp only [expected, trailing, hd]
    rfl
  · have hdue : ¬u ≤ m.now := fun h => ht.1 rfl ⟨s', u, hd, h⟩
    have hbusy : m.expected d ending [(m.now, s)] =
        trailing d.window ending true m.lastActed [(m.now, s)] := by
      rw [expected, hd]
      exact if_neg hdue
    have hlater : trailing d.window ending true m.lastActed [(m.now, s)] =
        if m.now + d.window ≤ ending then [(m.now + d.window, s)] else [] := by
      rw [trailing, if_neg (by simp)]
      rfl
    rw [hbusy, hlater]
    exact (if_neg (by simp)).symm

end Watch

end TunnelView
