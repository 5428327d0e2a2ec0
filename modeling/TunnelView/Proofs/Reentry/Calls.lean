import TunnelView.Proofs.Reentry

/-!
# The slots of a view hold the calls on its clock

Every call on the clock of a view is held by the slot of its kind under its serial number, and every
slot that is armed holds such a call. This is so at any moment, also while code outside is called
from the midst of an operation, whatever that code does, and for times that need not be ordered.

Taking on and letting go of a call are the same for both slots, so there is one lemma for each.

Key definitions: `Alarm.put`, `View.serials`, `View.Holds`.
Key theorems: `View.Holds.let_go`, `View.Holds.take_on`, `View.upheld_holds`,
`View.Holds.pending`.
-/

namespace TunnelView

variable {τ ο : Type}

/-- Puts a slot in the place of that of an alarm. -/
def Alarm.put (slot : Slot) (v : View τ) : Alarm → View τ
  | .deferred _ => { v with deferral := slot }
  | .giveUp => { v with timeout := slot }

/-- The view with the slot of an alarm emptied. -/
def View.without (v : View τ) (a : Alarm) : View τ := a.put (a.slot v).emptied v

namespace Alarm

variable (a : Alarm) (slot slot' : Slot) (v : View τ)

@[simp]
theorem slot_put : a.slot (a.put slot v) = slot := by cases a <;> rfl

@[simp]
theorem put_slot : a.put (a.slot v) v = v := by cases a <;> rfl

@[simp]
theorem put_put : a.put slot' (a.put slot v) = a.put slot' v := by cases a <;> rfl

@[simp]
theorem put_lastActed : (a.put slot v).lastActed = v.lastActed := by cases a <;> rfl

@[simp]
theorem put_delays : (a.put slot v).delays = v.delays := by cases a <;> rfl

@[simp]
theorem without_lastActed : (v.without a).lastActed = v.lastActed := put_lastActed ..

@[simp]
theorem without_delays : (v.without a).delays = v.delays := put_delays ..

end Alarm

/-- The serial numbers of the calls that are held. -/
def View.serials (v : View τ) : List ℕ := v.deferral.armed.toList ++ v.timeout.armed.toList

/-- The slots of a view hold just the calls on a clock. -/
structure View.Holds (v : View τ) (c : Clock τ Alarm) : Prop where
  fresh : ∀ t ∈ c.timers, t.serial < c.next
  held : ∀ t ∈ c.timers, (t.call.slot v).armed = some t.serial
  serials : (c.timers.map Timer.serial).Perm v.serials
  nodup : v.serials.Nodup

namespace View.Holds

variable {v : View τ} {c c' : Clock τ Alarm} {a : Alarm} {i : ℕ}

theorem opened (d : Delays τ) (now : τ) : (View.opened d now).Holds { now } :=
  ⟨nofun, nofun, .nil, .nil⟩

/-- Only what the slots are armed with matters. -/
theorem of_slots {v' : View τ} (h : v.Holds c) (hd : v'.deferral.armed = v.deferral.armed)
    (ht : v'.timeout.armed = v.timeout.armed) : v'.Holds c := by
  have hslot : ∀ a : Alarm, (a.slot v').armed = (a.slot v).armed := fun a => by
    cases a <;> assumption
  have hserials : v'.serials = v.serials := by rw [View.serials, hd, ht, View.serials]
  refine ⟨h.fresh, fun t htimer => ?_, ?_, ?_⟩
  · rw [hslot]
    exact h.held t htimer
  · rw [hserials]
    exact h.serials
  · rw [hserials]
    exact h.nodup

theorem of_timers (h : v.Holds c) (ht : c'.timers = c.timers) (hn : c'.next = c.next) :
    v.Holds c' where
  fresh := by
    rw [ht, hn]
    exact h.fresh
  held := by
    rw [ht]
    exact h.held
  serials := by
    rw [ht]
    exact h.serials
  nodup := h.nodup

theorem lt_next (h : v.Holds c) (hi : i ∈ v.serials) : i < c.next := by
  obtain ⟨t, ht, rfl⟩ := List.mem_map.mp (h.serials.mem_iff.mpr hi)
  exact h.fresh t ht

/-- A call is let go of: its slot is emptied. -/
theorem let_go (h : v.Holds c) (ha : (a.slot v).armed = some i) (new : Slot)
    (hnew : new.armed = none) (ht : c'.timers = c.timers.filter (·.serial != i))
    (hn : c'.next = c.next) : (a.put new v).Holds c' := by
  have hmem : ∀ {t}, t ∈ c'.timers → t ∈ c.timers ∧ t.serial ≠ i := by
    intro t htimer
    rw [ht] at htimer
    simpa using List.mem_filter.mp htimer
  have hserials : (a.put new v).serials = v.serials.filter (· != i) := by
    have hkept : ∀ l : List ℕ, i ∉ l → l.filter (· != i) = l := fun l hi =>
      List.filter_eq_self.mpr fun j hj => by simpa using ne_of_mem_of_not_mem hj hi
    have hnodup := h.nodup
    rw [View.serials, List.nodup_append] at hnodup
    obtain ⟨-, -, hne⟩ := hnodup
    rw [View.serials, View.serials, List.filter_append]
    cases a <;> simp only [Alarm.slot] at ha <;> rw [ha] at hne ⊢
    case deferred s =>
      rw [hkept v.timeout.armed.toList fun hi => hne i (by simp) i hi rfl]
      simp [Alarm.put, hnew]
    case giveUp =>
      rw [hkept v.deferral.armed.toList fun hi => hne i hi i (by simp) rfl]
      simp [Alarm.put, hnew]
  constructor
  case fresh =>
    intro t htimer
    rw [hn]
    exact h.fresh t (hmem htimer).1
  case held =>
    intro t htimer
    obtain ⟨hold, hne⟩ := hmem htimer
    have hheld := h.held t hold
    rcases t with ⟨deadline, serial, s | _⟩ <;> cases a <;> simp_all [Alarm.slot, Alarm.put]
  case serials =>
    rw [hserials, ht]
    have hfilter := h.serials.filter (· != i)
    rwa [List.filter_map] at hfilter
  case nodup =>
    rw [hserials]
    exact h.nodup.filter _

/-- A call is taken on: its slot, which was empty, is armed with it. -/
theorem take_on (h : v.Holds c) (ha : (a.slot v).armed = none) (new : Slot)
    (hnew : new.armed = some c.next) {deadline : τ}
    (ht : c'.timers.Perm (⟨deadline, c.next, a⟩ :: c.timers)) (hn : c'.next = c.next + 1) :
    (a.put new v).Holds c' := by
  have hserials : (a.put new v).serials.Perm (c.next :: v.serials) := by
    cases a <;> simp only [Alarm.slot] at ha <;> simp [Alarm.put, View.serials, ha, hnew]
  have hunheld : c.next ∉ v.serials := fun hi => lt_irrefl _ (h.lt_next hi)
  constructor
  case fresh =>
    intro t htimer
    rw [hn]
    rcases List.mem_cons.mp (ht.mem_iff.mp htimer) with rfl | hold
    · exact Nat.lt_succ_self _
    · exact (h.fresh t hold).trans (Nat.lt_succ_self _)
  case held =>
    intro t htimer
    rcases List.mem_cons.mp (ht.mem_iff.mp htimer) with rfl | hold
    · rw [Alarm.slot_put, hnew]
    · have hheld := h.held t hold
      rcases t with ⟨deadline, serial, s | _⟩ <;> cases a <;> simp_all [Alarm.slot, Alarm.put]
  case serials => exact ((ht.map _).trans (h.serials.cons _)).trans hserials.symm
  case nodup => exact hserials.nodup_iff.mpr (List.nodup_cons.mpr ⟨hunheld, h.nodup⟩)

/-- No number is held twice. -/
theorem ne_of_armed {j : ℕ} (h : v.Holds c) (hi : v.deferral.armed = some i)
    (hj : v.timeout.armed = some j) : i ≠ j := by
  rintro rfl
  have hnodup := h.nodup
  simp [View.serials, hi, hj] at hnodup

/-- A call that is held is on the clock. -/
theorem exists_held (h : v.Holds c) (hi : i ∈ v.serials) :
    ∃ t ∈ c.timers, t.serial = i ∧ (t.call.slot v).armed = some i := by
  obtain ⟨t, ht, rfl⟩ := List.mem_map.mp (h.serials.mem_iff.mpr hi)
  exact ⟨t, ht, rfl, h.held t ht⟩

theorem exists_timer (h : v.Holds c) (hi : v.timeout.armed = some i) :
    ∃ t ∈ c.timers, t.serial = i ∧ t.call = .giveUp := by
  have hmem : i ∈ v.serials := by simp [View.serials, hi]
  obtain ⟨t, ht, hserial, hheld⟩ := h.exists_held hmem
  refine ⟨t, ht, hserial, ?_⟩
  rcases t with ⟨deadline, serial, s | _⟩
  · exact absurd rfl (h.ne_of_armed hheld hi)
  · rfl

theorem exists_deferred (h : v.Holds c) (hi : v.deferral.armed = some i) :
    ∃ t ∈ c.timers, t.serial = i ∧ ∃ s, t.call = .deferred s := by
  have hmem : i ∈ v.serials := by simp [View.serials, hi]
  obtain ⟨t, ht, hserial, hheld⟩ := h.exists_held hmem
  refine ⟨t, ht, hserial, ?_⟩
  rcases t with ⟨deadline, serial, s | _⟩
  · exact ⟨s, rfl⟩
  · exact absurd rfl (h.ne_of_armed hi hheld)

/-- Where no report is put off, all calls on the clock are ends of assumptions. -/
theorem eq_giveUp (h : v.Holds c) (hd : v.deferral.armed = none) {t : Timer τ Alarm}
    (ht : t ∈ c.timers) : t.call = .giveUp := by
  have hheld := h.held t ht
  rcases t with ⟨deadline, serial, s | _⟩
  · rw [show (Alarm.slot v (.deferred s)).armed = none from hd] at hheld
    contradiction
  · rfl

/-- There are as many calls on the clock as slots are armed. -/
theorem pending (h : v.Holds c) : c.pending = v.deferring.toNat + v.timing.toNat := by
  have hlength := h.serials.length_eq
  rw [List.length_map, View.serials, List.length_append] at hlength
  rw [Clock.pending, hlength, View.deferring, View.timing, Slot.pending, Slot.pending]
  cases v.deferral.armed <;> cases v.timeout.armed <;> rfl

variable [Zero τ] [Add τ] [LT τ] [DecidableLT τ] [LE τ] [DecidableLE τ]

/-- The slot of an alarm is emptied. -/
theorem cancel (h : v.Holds c) (a : Alarm) :
    (a.put ((a.slot v).cancel c).1 v).Holds ((a.slot v).cancel c).2 := by
  cases ha : (a.slot v).armed with
  | none =>
    rw [Slot.cancel_of_empty ha]
    cases a with
    | deferred s => exact h.of_slots ha.symm rfl
    | giveUp => exact h.of_slots rfl ha.symm
  | some i =>
    rw [Slot.cancel_of_armed ha]
    exact h.let_go ha _ rfl rfl rfl

/-- A call is put in the slot of its alarm, in place of what was there. -/
theorem schedule (h : v.Holds c) (a : Alarm) (delay : τ) :
    (a.put ((a.slot v).schedule delay a c).1 v).Holds ((a.slot v).schedule delay a c).2 := by
  have hempty : (a.slot (a.put ((a.slot v).cancel c).1 v)).armed = none := by
    rw [Alarm.slot_put]
    rfl
  let slot := ((a.slot v).cancel c).1
  let clock := ((a.slot v).cancel c).2
  have harmed : (a.put (slot.take clock.next) (a.put slot v)).Holds (clock.arm delay a).2 :=
    (h.cancel a).take_on hempty _ rfl (Clock.insert_perm _ _) rfl
  rwa [Alarm.put_put] at harmed

omit [Zero τ] [Add τ] in
/-- The call that falls due is held, and is let go of. -/
theorem popDue (h : v.Holds c) {limit : Option τ} {t : Timer τ Alarm}
    (hpop : c.popDue limit = (some t, c')) :
    (t.call.slot v).armed = some t.serial ∧ (v.without t.call).Holds c' := by
  obtain ⟨ht, hn, htimers⟩ := Clock.popDue_some hpop
  have hheld := h.held t ht
  have hnodup : (c.timers.map Timer.serial).Nodup := h.serials.nodup_iff.mpr h.nodup
  rw [eraseP_serial t.serial hnodup] at htimers
  exact ⟨hheld, h.let_go hheld _ rfl htimers hn⟩

end View.Holds

section Upheld

variable [Zero τ] [Add τ] [LT τ] [DecidableLT τ] [LE τ] [DecidableLE τ]

/-- **The slots hold the calls on the clock through whatever a view does.** -/
theorem View.upheld_holds :
    Upheld (fun _ => True) fun w : World τ ο => w.rest.view.Holds w.clock where
  aside _ _ h := h
  status _ h := h.of_slots rfl rfl
  acted _ h := h.of_slots rfl rfl
  moveTo _ h := h.of_timers rfl rfl
  tidied h := h.of_timers rfl rfl
  missed h hpop hmissed := absurd (h.popDue hpop).1 hmissed
  recalled h hpop _ hcall := by
    have hput := (h.popDue hpop).2
    revert hput
    cases hc : Timer.call _ with
    | deferred s => exact id
    | giveUp => exact absurd hc hcall
  lapsed h hpop _ hcall := by
    have hput := (h.popDue hpop).2
    rw [hcall] at hput
    exact hput.of_slots rfl rfl
  resetFallback h := (h.cancel .giveUp).of_slots rfl rfl
  close {w} h := by
    cases hc : w.rest.view.closed with
    | true => rwa [View.close_of_closed hc]
    | false =>
      rw [View.close_of_open hc]
      have hdeferral := h.cancel (.deferred (.bare .disconnected))
      exact (hdeferral.cancel .giveUp).of_slots rfl rfl
  putOff s delay h _ := h.schedule (.deferred s) delay
  stored _ h _ _ := h.of_slots rfl rfl
  assumed a _ hp h hc hr := by
    obtain ⟨-, back, hback, events, he⟩ := View.assume_of_open hc hr
    have hkeeps := Keeps.commit (fun _ _ h => h.of_slots rfl rfl) hp a.status
    have hshown : back.rest.view.Holds back.clock := hkeeps.apply hback (h.of_slots rfl rfl)
    rw [he]
    have hset := hshown.schedule .giveUp back.rest.view.delays.patience
    exact ⟨hset, fun s => hset.of_slots rfl rfl⟩

end Upheld
end TunnelView
