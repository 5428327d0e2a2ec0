import TunnelView.Proofs.Steps

/-!
# Courses: what happens to a view, move by move

Operations on the clock let any number of calls fire, so what a session does is told more finely by
moves. A report comes in, an assumption is made or dropped, the call that is due first fires, or the
clock goes on with nothing due on the way. A course is a list of moves, each of which is possible
when its turn comes.

Serial numbers only grow, so a call that is gone from the clock never comes back.

Key definitions: `Move`, `Move.run`, `Move.passes`, `Course.run`, `Course.Possible`,
`Course.passed`, `Course.fired`, `Ages`.
Key theorems: `Move.run_of_brings`, `World.Path.later`, `Ages.move`, `Course.ne_of_gone`.
-/

namespace TunnelView

/-- What can happen to a view. -/
inductive Move (τ : Type) where
  | report (s : Status)
  | assume (a : Assumption)
  | reset
  /-- The call that is due first fires. -/
  | ring
  /-- The clock goes on to a time, with nothing due on the way. -/
  | wait (time : τ)

variable {τ ο : Type}

/-- Whether a move comes from outside, and not from the clock. -/
def Move.isAsked : Move τ → Bool
  | .report _ | .assume _ | .reset => true
  | .ring | .wait _ => false

/-- Whether a move makes or drops an assumption at the user's will. -/
def Move.intervenes : Move τ → Bool
  | .assume _ | .reset => true
  | _ => false

section Moves

variable [LinearOrder τ]

/-- The call that fires by a move. -/
def Move.fires (w : World τ ο) : Move τ → Option (Timer τ Alarm)
  | .ring => (w.clock.popDue none).1
  | _ => none

/-- Whether a move is possible: a call fires only if there is one, and the clock passes none. -/
def Move.Possible (w : World τ ο) : Move τ → Prop
  | .ring => (w.clock.popDue none).1 ≠ none
  | .wait time => (w.clock.popDue (some time)).1 = none
  | _ => True

instance (w : World τ ο) (move : Move τ) : Decidable (move.Possible w) :=
  match move with
  | .ring => inferInstanceAs (Decidable ¬((w.clock.popDue none).1 = none))
  | .wait time => inferInstanceAs (Decidable ((w.clock.popDue (some time)).1 = none))
  | .report _ | .assume _ | .reset => .isTrue trivial

/-- The report that a move brings to a view, and the world to which it comes: a report comes in, or
one that was put off comes back when its call fires. -/
def Move.brings (w : World τ ο) : Move τ → Option (Status × World τ ο)
  | .report s => some (s, w)
  | .ring =>
    match w.clock.popDue none with
    | (some ⟨_, serial, .deferred s⟩, clock) =>
      (w.rest.view.deferral.claim? serial).map fun slot =>
        (s, { w with clock, rest.view.deferral := slot })
    | _ => none
  | _ => none

/-- What a move brings comes to a view that is the same but for the deferral. -/
theorem Move.brings_frame {w w₁ : World τ ο} {move : Move τ} {s : Status}
    (h : move.brings w = some (s, w₁)) : w₁.clock.next = w.clock.next ∧
      ∃ slot, w₁.rest = { w.rest with view.deferral := slot } := by
  cases move <;> simp only [Move.brings, reduceCtorEq] at h
  case report s' =>
    obtain ⟨rfl, rfl⟩ := Prod.mk.inj (Option.some.inj h)
    exact ⟨rfl, _, rfl⟩
  case ring =>
    split at h
    · rename_i t serial s' clock hpop
      obtain ⟨slot, -, he⟩ := Option.map_eq_some_iff.mp h
      obtain ⟨rfl, rfl⟩ := Prod.mk.inj he
      refine ⟨?_, slot, rfl⟩
      rw [← Clock.popDue_next none w.clock, hpop]
    · contradiction

variable [AddCommGroup τ]

/-- Runs a move, where `out` is the code outside. -/
def Move.run (out : Outside τ ο) : Move τ → Run τ ο Unit
  | .report s => View.receive out s
  | .assume a => View.assume out a
  | .reset => View.resetFallback
  | .ring => do
    match ← Timed.popDue none with
    | none => pure ()
    | some t => View.fire out t
  | .wait time => do
    let _ ← Timed.popDue (some time)
    Timed.onClock (Timekeeper.moveTo time)

/-- Whether a view acts at once on a report that comes in. -/
def View.admits (v : View τ) (now : τ) : Bool := !v.closed && !v.tooSoon now

/-- The report that passes the quiet window by a move. -/
def Move.passes (w : World τ ο) (move : Move τ) : Option Status :=
  (move.brings w).bind fun (s, w) => if w.rest.view.admits w.clock.now then some s else none

theorem Move.brings_of_passes {w : World τ ο} {move : Move τ} {s : Status}
    (h : move.passes w = some s) :
    ∃ w₁, move.brings w = some (s, w₁) ∧ w₁.rest.view.admits w₁.clock.now := by
  obtain ⟨⟨s', w₁⟩, hb, hif⟩ := Option.bind_eq_some_iff.mp h
  simp only at hif
  split at hif
  · obtain rfl := Option.some.inj hif
    exact ⟨w₁, hb, ‹_›⟩
  · contradiction

/-- A report that a move brings is taken in. -/
theorem Move.run_of_brings {out : Outside τ ο} {w w₁ : World τ ο} {move : Move τ} {s : Status}
    (h : move.brings w = some (s, w₁)) : move.run out w = View.receive out s w₁ := by
  cases move <;> simp only [Move.brings, reduceCtorEq] at h
  case report s' =>
    obtain ⟨rfl, rfl⟩ := Prod.mk.inj (Option.some.inj h)
    rfl
  case ring =>
    split at h
    · rename_i t serial s' clock hpop
      obtain ⟨slot, hslot, he⟩ := Option.map_eq_some_iff.mp h
      obtain ⟨rfl, rfl⟩ := Prod.mk.inj he
      rw [Move.run, Act.bind_apply, Timed.popDue_apply hpop]
      simp only [View.fire, View.current_bind, hslot]
      rfl
    · contradiction

namespace Course

/-- The world after a course. -/
def run (out : Outside τ ο) : List (Move τ) → World τ ο → World τ ο
  | [], w => w
  | move :: moves, w => run out moves (move.run out w).2

/-- Whether each move of a course is possible when its turn comes. -/
def Possible (out : Outside τ ο) : List (Move τ) → World τ ο → Prop
  | [], _ => True
  | move :: moves, w => move.Possible w ∧ Possible out moves (move.run out w).2

instance decidablePossible (out : Outside τ ο) : (moves : List (Move τ)) → (w : World τ ο) →
    Decidable (Possible out moves w)
  | [], _ => .isTrue trivial
  | move :: moves, w =>
    have := decidablePossible out moves (move.run out w).2
    inferInstanceAs (Decidable (move.Possible w ∧ Possible out moves (move.run out w).2))

/-- The reports that pass the quiet window in a course, in order. -/
def passed (out : Outside τ ο) : List (Move τ) → World τ ο → List Status
  | [], _ => []
  | move :: moves, w => (move.passes w).toList ++ passed out moves (move.run out w).2

/-- The calls that fire in a course, in order. -/
def fired (out : Outside τ ο) : List (Move τ) → World τ ο → List (Timer τ Alarm)
  | [], _ => []
  | move :: moves, w => (move.fires w).toList ++ fired out moves (move.run out w).2

variable {out : Outside τ ο} {before after : List (Move τ)} {w : World τ ο}

theorem run_append : run out (before ++ after) w = run out after (run out before w) := by
  induction before generalizing w with
  | nil => rfl
  | cons move before ih => exact ih

theorem possible_append : Possible out (before ++ after) w ↔
    Possible out before w ∧ Possible out after (run out before w) := by
  induction before generalizing w with
  | nil => simp [Possible, run]
  | cons move before ih => simp only [List.cons_append, Possible, run, ih, and_assoc]

end Course
end Moves

/-! ### Serial numbers only grow -/

/-- Whether a run lets the clock only grow later, as long as the owner is `fine`, which stays so. -/
def Ages (fine : ο → Prop) {α : Type} (x : Run τ ο α) : Prop :=
  ∀ w, fine w.rest.owner → fine (x w).2.rest.owner ∧ w.clock.Later (x w).2.clock

section Later

variable [AddCommGroup τ] [LinearOrder τ] {fine : ο → Prop} {out : Outside τ ο} {w w' : World τ ο}

/-- Whatever a view does, the clock only grows later and the owner stays fine, as long as code outside
only looks on. -/
theorem World.Step.later (h : World.Step out w w') (hout : out.LooksOn fine)
    (hw : fine w.rest.owner) : fine w'.rest.owner ∧ w.clock.Later w'.clock := by
  cases h with
  | shows s _ _ =>
    obtain ⟨r, owner, events, hrun, howner, -, -⟩ := hout.present s w hw
    rw [hrun]
    exact ⟨howner, .refl _⟩
  | cancels a => exact ⟨hw, Slot.cancel_later ..⟩
  | schedules a delay => exact ⟨hw, (Slot.cancel_later ..).trans (.arm ..)⟩
  | moves time => exact ⟨hw, le_rfl, fun _ h => .inl h⟩
  | tidies => exact ⟨hw, le_rfl, fun _ h => .inl h⟩
  | fires hpop _ => exact ⟨hw, Clock.Later.popDue hpop⟩
  | misses hpop _ => exact ⟨hw, Clock.Later.popDue hpop⟩
  | _ => exact ⟨hw, .refl _⟩

theorem World.Path.later (h : World.Path out w w') (hout : out.LooksOn fine)
    (hw : fine w.rest.owner) : fine w'.rest.owner ∧ w.clock.Later w'.clock := by
  induction h with
  | refl => exact ⟨hw, .refl _⟩
  | tail _ hstep ih =>
    obtain ⟨howner, hlater⟩ := hstep.later hout ih.1
    exact ⟨howner, ih.2.trans hlater⟩

/-- Nothing that can happen brings back a call that is gone. -/
theorem Ages.move (hout : out.LooksOn fine) (move : Move τ) : Ages fine (move.run out) := by
  intro w hw
  cases move with
  | report s => exact (World.Path.receive s w).later hout hw
  | assume a => exact (World.Path.assume a w).later hout hw
  | reset => exact (World.Path.resetFallback w).later hout hw
  | ring =>
    rcases hpop : w.clock.popDue none with ⟨_ | t, clock⟩
    · rw [Move.run, Act.bind_apply, Timed.popDue_apply hpop]
      exact ⟨hw, Clock.Later.popDue hpop⟩
    · rw [Move.run, Act.bind_apply, Timed.popDue_apply hpop]
      exact (World.Path.fire hpop).later hout hw
  | wait time => exact ⟨hw, (Clock.Later.popDue rfl).trans ⟨le_rfl, fun _ h => .inl h⟩⟩

end Later

section Never

variable [LinearOrder τ] {fine : ο → Prop} {out : Outside τ ο} {w : World τ ο} {serial : ℕ}

/-- A call that fires is one of those on the clock. -/
theorem Move.mem_timers {move : Move τ} {t : Timer τ Alarm} (h : move.fires w = some t) :
    t ∈ w.clock.timers := by
  cases move <;> simp only [Move.fires, reduceCtorEq] at h
  have hf : w.clock.tidied.first? = some t := by
    rw [Clock.popDue] at h
    split at h
    · contradiction
    · rename_i u hu
      rw [hu]
      exact h
  unfold Clock.first? at hf
  split at hf
  · exact List.mem_of_mem_head? hf
  · obtain ⟨due, -, hd⟩ := Option.bind_eq_some_iff.mp hf
    exact List.mem_of_find?_eq_some hd

variable [AddCommGroup τ]

/-- A call that is gone never fires again, whatever happens. -/
theorem Course.ne_of_gone (hout : out.LooksOn fine) (hw : fine w.rest.owner)
    (hg : w.clock.Gone serial) {moves : List (Move τ)} :
    ∀ t ∈ Course.fired out moves w, t.serial ≠ serial := by
  induction moves generalizing w with
  | nil => simp [Course.fired]
  | cons move moves ih =>
    obtain ⟨ho, hl⟩ := Ages.move hout move w hw
    intro t ht
    rcases List.mem_append.mp ht with h | h
    · exact hg.2 t (Move.mem_timers (Option.mem_toList.mp h))
    · exact ih ho (hl.gone hg) t h

end Never
end TunnelView
