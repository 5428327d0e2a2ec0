import Mathlib.Algebra.Order.Group.Basic
import TunnelView.Proofs.Reentry.Calls

/-!
# A report that was put off is not put off again

A report is put off until a whole window after the last report was acted on, or later. No other is
acted on while it waits, so when it falls due its window is over, and it is acted on. This is so
whatever code outside does in between, with times that are exact.

So a call that falls due uses up what is armed: the end of an assumption arms nothing, and a report
that was put off arms an end of an assumption at most. `View.weight` counts what can still fire.

Key definitions: `View.Gated`, `View.weight`.
Key theorems: `View.Gated.schedule`, `View.Gated.popDue`, `View.Gated.not_tooSoon`.
-/

namespace TunnelView

variable {τ κ : Type}

/-! ### What is on the clock -/

section Slots

variable [LinearOrder τ] [Zero τ] [Add τ] {c clock : Clock τ κ} {limit : Option τ} {t u : Timer τ κ}

omit [Add τ] in
theorem le_delayed (delay : τ) : delay ≤ delayed delay := by
  unfold delayed
  split
  · exact le_of_lt ‹_›
  · exact le_rfl

omit [Zero τ] [Add τ] in
/-- A call fires at its deadline, or at once if that is past. -/
theorem Clock.popDue_now (h : c.popDue limit = (some t, clock)) :
    c.now ≤ clock.now ∧ t.deadline ≤ clock.now := by
  obtain ⟨-, rfl, -⟩ := popDue_fired h
  have hnow : (c.tidied.fired t).now = max c.now t.deadline := later_eq_max _ _
  rw [hnow]
  exact ⟨le_max_left .., le_max_right ..⟩

end Slots

namespace View

/-- How many calls can still fire: the alarm of a report may set one more. -/
def weight (v : View τ) : ℕ := 2 * v.deferring.toNat + v.timing.toNat

theorem weight_le (v : View τ) : v.weight ≤ 3 := by
  have hdeferring := v.deferring.toNat_le
  have htiming := v.timing.toNat_le
  unfold weight
  omega

/-- How many reports are put off. -/
def deferrals (v : View τ) : ℕ := v.deferring.toNat

theorem deferrals_le (v v' : View τ) (h : v'.weight ≤ v.weight) : v'.deferrals ≤ v.deferrals := by
  have htiming := v.timing.toNat_le
  unfold weight at h
  unfold deferrals
  omega

/-- A report that is no longer put off leaves room for the end of an assumption. -/
theorem weight_lt_of_deferral {v v' : View τ} {i : ℕ} (h : v.deferral.armed = some i)
    (hv : v'.deferrals ≤ deferrals { v with deferral := v.deferral.emptied }) :
    v'.weight < v.weight := by
  have hclear : deferrals { v with deferral := v.deferral.emptied } = 0 := rfl
  have htiming := v'.timing.toNat_le
  have hdeferring : v.deferring = true := by rw [deferring, Slot.pending, h]; rfl
  rw [hclear, deferrals] at hv
  rw [weight, weight, hdeferring, Bool.toNat_true]
  omega

theorem weight_lt_of_timeout {v : View τ} {i : ℕ} (h : v.timeout.armed = some i) :
    weight { v with timeout := v.timeout.emptied } < v.weight := by
  have hclear : weight { v with timeout := v.timeout.emptied } = 2 * v.deferring.toNat := rfl
  have htiming : v.timing = true := by rw [timing, Slot.pending, h]; rfl
  rw [hclear, weight, htiming, Bool.toNat_true]
  omega

theorem Holds.pending_le {v : View τ} {c : Clock τ Alarm} (h : v.Holds c) : c.pending ≤ v.weight := by
  rw [h.pending, weight]
  omega

theorem weight_cancel [Zero τ] [Add τ] [LT τ] [DecidableLT τ] [LE τ] [DecidableLE τ] (v : View τ)
    (c : Clock τ Alarm) (a : Alarm) : (a.put ((a.slot v).cancel c).1 v).weight ≤ v.weight := by
  have hpending : ((a.slot v).cancel c).1.pending = false := rfl
  cases a <;> simp_all [weight, deferring, timing, Alarm.put, Alarm.slot]

variable [AddCommGroup τ] [LinearOrder τ]

/-- The slots hold the calls on the clock, and a report that was put off waits at least until the
window is over since a report was last acted on. -/
structure Gated (v : View τ) (c : Clock τ Alarm) : Prop where
  holds : v.Holds c
  acted : v.lastActed ≤ c.now
  gate : ∀ t ∈ c.timers, t.call ≠ .giveUp → v.lastActed + v.delays.window ≤ t.deadline

namespace Gated

variable {v v' : View τ} {c c' clock : Clock τ Alarm} {t : Timer τ Alarm} {limit : Option τ}

theorem opened (d : Delays τ) (now : τ) : (View.opened d now).Gated { now } :=
  ⟨.opened d now, le_rfl, nofun⟩

theorem of_same (h : v.Gated c) (hdeferral : v'.deferral = v.deferral)
    (htimeout : v'.timeout = v.timeout) (hacted : v'.lastActed = v.lastActed)
    (hdelays : v'.delays = v.delays) : v'.Gated c where
  holds := h.holds.of_slots (congrArg Slot.armed hdeferral) (congrArg Slot.armed htimeout)
  acted := hacted ▸ h.acted
  gate := by
    rw [hacted, hdelays]
    exact h.gate

theorem tidied (h : v.Gated c) : v.Gated c.tidied :=
  ⟨h.holds.of_timers rfl rfl, h.acted, h.gate⟩

theorem moveTo (h : v.Gated c) (time : τ) : v.Gated (c.moveTo time) where
  holds := h.holds.of_timers rfl rfl
  acted := by
    have hnow : (c.moveTo time).now = max c.now time := later_eq_max _ _
    rw [hnow]
    exact h.acted.trans (le_max_left ..)
  gate := h.gate

/-- A report is acted on only while none is put off. -/
theorem acts (h : v.Gated c) (hd : v.deferring = false) :
    Gated { v with lastActed := c.now } c where
  holds := h.holds.of_slots rfl rfl
  acted := le_rfl
  gate _ ht hcall := by
    have hempty : v.deferral.armed = none := by simpa [deferring, Slot.pending] using hd
    exact absurd (h.holds.eq_giveUp hempty ht) hcall

theorem cancel (h : v.Gated c) (a : Alarm) :
    (a.put ((a.slot v).cancel c).1 v).Gated ((a.slot v).cancel c).2 := by
  refine ⟨h.holds.cancel a, ?_, fun t ht => ?_⟩
  · rw [Alarm.put_lastActed, Slot.cancel_now]
    exact h.acted
  · rw [Alarm.put_lastActed, Alarm.put_delays]
    exact h.gate t (Slot.mem_of_cancel ht)

/-- The call that falls due is held, and is let go of. -/
theorem popDue (h : v.Gated c) (hpop : c.popDue limit = (some t, clock)) :
    (t.call.slot v).armed = some t.serial ∧ (v.without t.call).Gated clock := by
  obtain ⟨hheld, hholds⟩ := h.holds.popDue hpop
  refine ⟨hheld, hholds, ?_, fun u hu => ?_⟩
  · rw [Alarm.without_lastActed]
    exact h.acted.trans (Clock.popDue_now hpop).1
  · rw [Alarm.without_lastActed, Alarm.without_delays]
    exact h.gate u (Clock.mem_of_popDue hpop hu)

variable [IsOrderedAddMonoid τ]

/-- A report is put off by a window, and an assumption may be timed in any way. -/
theorem schedule (h : v.Gated c) (a : Alarm) {delay : τ}
    (hdelay : a ≠ .giveUp → v.delays.window ≤ delay) :
    (a.put ((a.slot v).schedule delay a c).1 v).Gated ((a.slot v).schedule delay a c).2 := by
  have hnow : ((a.slot v).cancel c).2.now = c.now := Slot.cancel_now (a.slot v) c
  refine ⟨h.holds.schedule a delay, ?_, fun t ht hcall => ?_⟩
  · rw [Alarm.put_lastActed]
    exact h.acted.trans_eq hnow.symm
  · rw [Alarm.put_lastActed, Alarm.put_delays]
    rcases Slot.mem_schedule.mp ht with rfl | hold
    · exact add_le_add h.acted ((hdelay hcall).trans (le_delayed delay))
    · exact h.gate t (Slot.mem_of_cancel hold) hcall

/-- **When a report that was put off falls due, its window is over.** -/
theorem not_tooSoon (h : v.Gated c) (hpop : c.popDue limit = (some t, clock))
    (hcall : t.call ≠ .giveUp) :
    tooSoon { v with deferral := v.deferral.emptied } clock.now = false := by
  have hdue := (h.gate t (Clock.popDue_some hpop).1 hcall).trans (Clock.popDue_now hpop).2
  have hlate : ¬clock.now - v.lastActed < v.delays.window := by
    rwa [not_lt, le_sub_iff_add_le']
  have hclear : deferring { v with deferral := v.deferral.emptied } = false := rfl
  rw [tooSoon, hclear, Bool.or_false, decide_eq_false hlate]

end Gated
end View
end TunnelView
