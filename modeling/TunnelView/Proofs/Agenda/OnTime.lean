import TunnelView.Proofs.Agenda.Moments
import TunnelView.Proofs.Life

/-!
# Calls fire in order, on time, and once

Items of a program, and those inside its calls down to any depth, do one thing after another to the
clock, so from moment to moment the clock lives on (`Clock.Life`). That says in which order calls
fire, at which times, and that none fires again or after it was let go of, whatever moves the clock
and however deep inside a call that is.

What `fired` keeps of an agenda are the calls that fired in the life of its clock, each at its own
deadline.

Key definitions: `Agenda.Lives`.
Key theorems: `Agenda.Lives.kept`, `Agenda.calls_fire_on_time`.
-/

namespace TunnelView.Agenda

variable {τ : Type} [LinearOrder τ] [Zero τ] [Add τ]

/-- What is kept of a call that fired. -/
def Fired.stamp (f : Fired τ) : String × τ := (f.name, f.time)

/-- What is to be kept of a call: its name and its deadline. -/
def stamp (t : Timer τ (Call τ)) : String × τ := (t.call.name, t.deadline)

/-- Whether a desk comes after one at which the calls of `before` had fired. -/
def Lives (start : Desk τ) (before : List (Timer τ (Call τ))) (w : Desk τ) : Prop :=
  ∃ after, Clock.Life start.clock after w.clock ∧ Clock.Punctual (after ++ before) w.clock ∧
    w.rest.fired.map Fired.stamp = (after ++ before).map stamp

namespace Lives

variable {start w w' : Desk τ} {before : List (Timer τ (Call τ))} {n : ℕ} {now : τ}

/-- One thing happens to the clock, and nothing fires. -/
theorem tick (hadd : ∀ t d : τ, 0 ≤ d → t ≤ t + d) (h : Lives start before w)
    (htick : Clock.Tick w.clock none w'.clock) (hfired : w'.rest.fired = w.rest.fired) :
    Lives start before w' := by
  obtain ⟨after, hlife, hpunctual, hrecord⟩ := h
  refine ⟨after, hlife.tick htick, htick.punctual hadd hpunctual, ?_⟩
  rw [hfired]
  exact hrecord

theorem cancel (hadd : ∀ t d : τ, 0 ≤ d → t ≤ t + d) (h : Lives start before w) (slot : Slot)
    {agenda : Agenda τ} (hfired : agenda.fired = w.rest.fired) :
    Lives start before ⟨(slot.cancel w.clock).2, agenda⟩ := by
  cases harmed : slot.armed with
  | none =>
    rw [Slot.cancel_of_empty harmed]
    obtain ⟨after, hlife, hpunctual, hrecord⟩ := h
    exact ⟨after, hlife, hpunctual, hfired ▸ hrecord⟩
  | some serial =>
    rw [Slot.cancel_of_armed harmed]
    exact h.tick hadd (.disarms _ serial) hfired

theorem kept (hadd : ∀ t d : τ, 0 ≤ d → t ≤ t + d) (start : Desk τ)
    (before : List (Timer τ (Call τ))) (n : ℕ) (now : τ) :
    Kept fun w => Reached n now w ∧ Lives start before w where
  arm := by
    rintro w call ⟨hreached, hlives⟩
    refine ⟨hreached.armCall call, ?_⟩
    cases hcall : call.slot with
    | none =>
      obtain ⟨name, harm⟩ := armCall_of_plain hcall w
      rw [harm]
      exact hlives.tick hadd (.arms _ _ _) rfl
    | some k =>
      rw [armCall_of_slot hcall]
      cases hslot : slot? w.rest k with
      | none =>
        rw [onSlot_of_no_place hslot]
        exact hlives
      | some place =>
        rw [onSlot_apply hslot]
        have hcancelled : Lives start before ⟨(place.2.cancel w.clock).2, w.rest⟩ :=
          hlives.cancel hadd place.2 rfl
        exact hcancelled.tick hadd (.arms _ call.delay call) rfl
  cancel := by
    rintro w k ⟨hreached, hlives⟩
    refine ⟨hreached.cancel k, ?_⟩
    cases hslot : slot? w.rest k with
    | none =>
      rw [Agenda.cancel, onSlot_of_no_place hslot]
      exact hlives
    | some place =>
      rw [Agenda.cancel, onSlot_apply hslot]
      exact hlives.cancel hadd place.2 rfl
  dropTimer := by
    rintro w name ⟨hreached, hlives⟩
    refine ⟨hreached.dropTimer name, ?_⟩
    cases hfind : w.rest.timers.find? (·.1 == name) with
    | none =>
      rw [dropTimer_of_no_name hfind]
      exact hlives
    | some handle =>
      rw [dropTimer_apply hfind]
      exact hlives.tick hadd (.disarms _ handle.2) rfl
  tidied := by
    rintro w ⟨hreached, hlives⟩
    exact ⟨(Reached.kept n now).tidied hreached, hlives.tick hadd (.tidies _) rfl⟩
  moveTo := by
    rintro w time ⟨hreached, hlives⟩ hpop
    exact ⟨(Reached.kept n now).moveTo time hreached hpop, hlives.tick hadd (.moves hpop) rfl⟩
  fires := by
    rintro w limit t clock ⟨hreached, after, hlife, hpunctual, hrecord⟩ hpop
    obtain ⟨w₁, hclaim, hreached₁⟩ := (Reached.kept n now).fires hreached hpop
    obtain ⟨o, ho, -⟩ := hreached.claims hpop
    obtain ⟨slot, -, rfl⟩ := claim_eq (w := { w with clock }) ho hclaim
    obtain ⟨hpunctual₁, hnow⟩ := hpunctual.popDue hpop
    refine ⟨_, hclaim, hreached₁, t :: after, hlife.tick (.fires hpop), hpunctual₁, ?_⟩
    -- the time that is kept is that of the clock, which stands at the deadline
    show (t.call.name, clock.now) :: w.rest.fired.map Fired.stamp = _
    rw [hrecord, hnow]
    rfl

end Lives

/-- The number of a call that is dropped is gone from the clock. -/
theorem gone_of_dropTimer {n : ℕ} {now : τ} {w : Desk τ} (hw : Reached n now w) {name : String}
    {handle : String × ℕ} (hfind : w.rest.timers.find? (·.1 == name) = some handle) :
    ((Item.dropTimer name).run 1 w).2.clock.Gone handle.2 := by
  obtain ⟨deeds, htrace⟩ := hw
  have hhandle := (htrace.agrees.handles handle (List.mem_of_find?_eq_some hfind)).1
  rw [run_dropTimer, dropTimer_apply hfind]
  refine ⟨hhandle, fun t ht => ?_⟩
  simpa using (List.mem_filter.mp ht).2

/-- A movement to a time that comes to its end has got there, and leaves nothing that is due. -/
theorem arrived_of_advanceTo {fuel : ℕ} {time : τ} {w w' : Desk τ}
    {fired : List (Timer τ (Call τ))} (hpunctual : Clock.Punctual fired w'.clock)
    (hrun : (Item.advanceTo time).run fuel w = (.ok (), w')) :
    time ≤ w'.clock.now ∧ ∀ t ∈ w'.clock.timers, time < t.deadline := by
  cases fuel with
  | zero => cases hrun
  | succ fuel =>
    replace hrun : Timed.advanceTo (ring (Item.run fuel)) fuel time w = (.ok (), w') := hrun
    rw [Timed.advanceTo, Act.bind_apply] at hrun
    rcases hdrain : Timed.drain (ring (Item.run fuel)) (some time) fuel w with ⟨stop | u, w₁⟩
    · rw [hdrain] at hrun
      cases hrun
    · rw [hdrain] at hrun
      obtain rfl := (Prod.mk.inj hrun).2
      have hidle := Timed.drain_idle hdrain
      refine ⟨?_, Clock.lt_of_popDue_none (c := w₁.clock) hpunctual.ordered hpunctual.sorted hidle⟩
      exact (le_max_right _ _).trans_eq (later_eq_max w₁.clock.now time).symm

/-- **Calls fire in order, on time, and once.** Between any two moments of any program, and so over
its whole run: time does not go back. The calls that fire do so in the order of their deadlines, and
those of one deadline in the order in which they were put on the clock; each is recorded at its own
deadline, and none comes twice. None is overdue at any moment. A number that is gone from the clock
never fires, and so none that was let go of. Where a movement to a time comes to its end, it is that
time or later, and nothing that is due by it is left. All the while the heap names the call that is
first. -/
theorem calls_fire_on_time (hadd : ∀ t d : τ, 0 ≤ d → t ≤ t + d) {n : ℕ} {now : τ} {w w' : Desk τ}
    (hw : Moment (fresh n now) w) (hw' : Moment w w') : ∃ before after,
      Clock.Life (fresh n now).clock before w.clock ∧ Clock.Life w.clock after w'.clock ∧
      w.rest.fired.map Fired.stamp = before.map stamp ∧
      w'.rest.fired.map Fired.stamp = (after ++ before).map stamp ∧
      ((after ++ before).Pairwise fun t u => u.Before t) ∧
      w.clock.now ≤ w'.clock.now ∧ (∀ t ∈ w'.clock.timers, w'.clock.now ≤ t.deadline) ∧
      (∀ serial, w.clock.Gone serial → ∀ t ∈ after, t.serial ≠ serial) ∧
      (∀ name handle, w.rest.timers.find? (·.1 == name) = some handle →
        ((Item.dropTimer name).run 1 w).2.clock.Gone handle.2) ∧
      (∀ fuel time, (Item.advanceTo time).run fuel w = (.ok (), w') →
        time ≤ w'.clock.now ∧ ∀ t ∈ w'.clock.timers, time < t.deadline) ∧
      (w'.clock.tidied.heap[0]?.bind fun due => w'.clock.timer? due.serial) =
        w'.clock.timers.head? := by
  have hstart : Reached n now (fresh n now) ∧ Lives (fresh n now) [] (fresh n now) :=
    ⟨⟨[], .start⟩, [], .start, .start now, rfl⟩
  obtain ⟨hreached, before, hlife, hpunctual, hrecord⟩ :=
    (Lives.kept hadd _ _ n now).of_moment hstart hw
  rw [List.append_nil] at hpunctual hrecord
  have hnext : Reached n now w ∧ Lives w before w :=
    ⟨hreached, [], .start, hpunctual, hrecord⟩
  obtain ⟨-, after, hlife', hpunctual', hrecord'⟩ :=
    (Lives.kept hadd w before n now).of_moment hnext hw'
  refine ⟨before, after, hlife, hlife', hrecord, hrecord', hpunctual'.rising, hlife'.now_le,
    hpunctual'.ahead, fun serial hgone => hlife'.ne_of_gone hgone,
    fun name handle => gone_of_dropTimer hreached, fun fuel time => arrived_of_advanceTo hpunctual',
    hpunctual'.first_of_heap⟩

/-- A call that moves the clock past where it is moved to from outside, after it put another on it
that is due at once; one of the same deadline fires before that, and one that was let go of never. -/
theorem calls_fire_on_time_nested :
    (∀ t d : ℤ, 0 ≤ d → t ≤ t + d) ∧ ∃ w w' : Desk ℤ, Moment (fresh 0 0) w ∧ Moment w w' ∧
      w.clock.Gone 2 ∧ w'.clock.now = 40 ∧
      w'.rest.fired.map Fired.stamp = [("late", 10), ("tie", 10), ("outer", 10)] ∧
      ∃ fired, Clock.Life w.clock fired w'.clock ∧
        fired.map stamp = [("late", 10), ("tie", 10), ("outer", 10)] ∧
        (fired.Pairwise fun t u => u.Before t) ∧ ∀ t ∈ fired, t.serial ≠ 2 := by
  have hadd : ∀ t d : ℤ, 0 ≤ d → t ≤ t + d := fun t d hd => le_add_of_nonneg_right hd
  have hmoments : ∃ w w' : Desk ℤ, Moment (fresh 0 0) w ∧ Moment w w' ∧ w.clock.Gone 2 ∧
      w.rest.fired.length = 0 ∧ w'.clock.now = 40 ∧
      w'.rest.fired.map Fired.stamp = [("late", 10), ("tie", 10), ("outer", 10)] := by
    have hstart : Moment (fresh 0 (0 : ℤ)) _ := .start
    have houter := hstart.meets 1 (.arm (.mk none "outer" 10
      [.arm (.mk none "late" (-5) [] 0), .advanceTo 40] 0)) .after
    have htie := houter.meets 1 (.arm (.mk none "tie" 10 [] 0)) .after
    have hdropped := htie.meets 1 (.arm (.mk none "dropped" 20 [] 0)) .after
    have hdrop := hdropped.meets 1 (.dropTimer "dropped") .after
    refine ⟨_, _, hdrop, .meets 5 (.advanceTo 30) .start .after, ⟨?_, ?_⟩, ?_⟩
    all_goals decide +kernel
  obtain ⟨w, w', hw, hw', hgone, hnone, hnow, hrecord⟩ := hmoments
  obtain ⟨before, after, -, hlife, hbefore, hafter, hrising, -, -, hnever, -⟩ :=
    calls_fire_on_time hadd hw hw'
  have hempty : before = [] := by
    have hlength := congrArg List.length hbefore
    simp only [List.length_map, hnone] at hlength
    exact List.eq_nil_of_length_eq_zero hlength.symm
  subst hempty
  rw [List.append_nil] at hafter hrising
  exact ⟨hadd, w, w', hw, hw', hgone, hnow, hrecord, after, hlife, hafter.symm.trans hrecord, hrising,
    hnever 2 hgone⟩

end TunnelView.Agenda
