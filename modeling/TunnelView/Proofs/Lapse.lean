import TunnelView.Proofs.Endings
import TunnelView.Proofs.Number.Rounding
import TunnelView.Proofs.Reentry.Calls

/-!
# No report is put off for ever

Sums of numbers are rounded, so when the alarm of a report that was put off rings, its window may
seem not to be over yet; then the report is put off once more. If the window is so short that it is
lost when it is added to the time, this goes on without end. It does not if a second window is
always enough (`Window.Lapses`): at any time at most one report waits, with one more try or two, and
at most one assumption runs out. Every alarm that rings uses up one of them, so the clock comes to
rest.

An undefined patience gives deadlines that are before and after nothing, and the calls on the clock
lose their order. But such a deadline does not move the clock either.

Key definitions: `Window.Lapses`, `Clock.InLine`, `World.Tame`.
Key theorems: `World.Tame.fire`, `World.Tame.drain`, `World.Tame.drainAll`.
-/

namespace TunnelView

variable {ο κ : Type}

/-! ### Calls in line -/

/-- The calls on a clock stand in line: none is due before one in front of it. Every deadline has a
place among the times, unless there are deadlines that aim at nothing. -/
structure Clock.InLine (aimless : Prop) (c : Clock Number κ) : Prop where
  sorted : c.timers.Pairwise fun t u => ¬u.deadline < t.deadline
  ordered : c.ordered = true ∨ aimless

namespace Clock.InLine

variable {aimless : Prop} {c clock : Clock Number κ}

theorem start (now : Number) : InLine aimless ({ now } : Clock Number κ) := ⟨.nil, .inl rfl⟩

theorem tidied (h : c.InLine aimless) : c.tidied.InLine aimless := ⟨h.sorted, h.ordered⟩

theorem moveTo (h : c.InLine aimless) (time : Number) : (c.moveTo time).InLine aimless :=
  ⟨h.sorted, h.ordered⟩

theorem cancel {c : Clock Number Alarm} (h : c.InLine aimless) (slot : Slot) :
    (slot.cancel c).2.InLine aimless := by
  cases ha : slot.armed with
  | none => rwa [Slot.cancel_of_empty ha]
  | some serial =>
    rw [Slot.cancel_of_armed ha]
    exact ⟨h.sorted.filter _, h.ordered⟩

/-- A call goes behind all that are due before or with it. -/
theorem insert_sorted {t : Timer Number κ} {ts : List (Timer Number κ)}
    (h : ts.Pairwise fun t u => ¬u.deadline < t.deadline) :
    (Clock.insert t ts).Pairwise fun t u => ¬u.deadline < t.deadline := by
  induction ts with
  | nil => exact List.pairwise_singleton _ t
  | cons u ts ih =>
    obtain ⟨hu, hts⟩ := List.pairwise_cons.mp h
    rw [Clock.insert]
    by_cases hlt : t.deadline < u.deadline
    · rw [if_pos hlt]
      refine List.pairwise_cons.mpr ⟨fun v hv hvt => ?_, h⟩
      rcases List.mem_cons.mp hv with rfl | hv
      · exact Number.lt_asymm hlt hvt
      · exact hu v hv (Number.lt_trans hvt hlt)
    · rw [if_neg hlt]
      refine List.pairwise_cons.mpr ⟨fun v hv => ?_, ih hts⟩
      rcases Clock.mem_insert.mp hv with rfl | hv
      · exact hlt
      · exact hu v hv

theorem arm (h : c.InLine aimless) {delay : Number} (call : κ)
    (hdue : c.now + delayed delay ≤ c.now + delayed delay ∨ aimless) :
    (c.arm delay call).2.InLine aimless := by
  refine ⟨insert_sorted h.sorted, ?_⟩
  rcases h.ordered with hord | haim
  · rcases hdue with hdue | haim
    · left
      show (c.ordered && decide (c.now + delayed delay ≤ c.now + delayed delay)) = true
      rw [hord, decide_eq_true hdue]
      rfl
    · exact .inr haim
  · exact .inr haim

/-- What is left on the clock is not due before the call that fires, or that call may be any. -/
theorem popDue (h : c.InLine aimless) {limit : Option Number} {t : Timer Number κ}
    (hpop : c.popDue limit = (some t, clock)) : clock.InLine aimless ∧
      ∀ u ∈ clock.timers, ¬u.deadline < t.deadline ∨ aimless := by
  obtain ⟨-, rfl, -⟩ := Clock.popDue_fired hpop
  refine ⟨⟨h.sorted.sublist List.eraseP_sublist, h.ordered⟩, fun u hu => ?_⟩
  rcases h.ordered with hord | haim
  · obtain ⟨⟨rest, hrest⟩, -⟩ := Clock.popDue_ordered hord hpop
    have hsorted := h.sorted
    rw [hrest] at hsorted
    have herase : (c.tidied.fired t).timers = rest := by
      show c.timers.eraseP (·.serial == t.serial) = rest
      rw [hrest]
      exact List.eraseP_cons_of_pos (beq_self_eq_true t.serial)
    rw [herase] at hu
    exact .inl ((List.pairwise_cons.mp hsorted).1 u hu)
  · exact .inr haim

end Clock.InLine

/-! ### Windows -/

/-- How large a number is, if it is an integer. -/
def Number.Fits (bound : ℕ) (a : Number) : Prop := ∀ n, a = .int n → n.natAbs ≤ bound

namespace Number.Fits

variable {a b : Number} {k l : ℕ}

theorem mono (h : a.Fits k) (hkl : k ≤ l) : a.Fits l := fun n hn => (h n hn).trans hkl

theorem add (ha : a.Fits k) (hb : b.Fits l) : (a + b).Fits (k + l) := by
  intro n hn
  cases a <;> cases b
  case int.int m m' =>
    obtain rfl : m + m' = n := Number.int.inj hn
    exact (Int.natAbs_add_le m m').trans (Nat.add_le_add (ha m rfl) (hb m' rfl))
  all_goals cases hn

theorem later (ha : a.Fits k) (hb : b.Fits k) : (TunnelView.later a b).Fits k := by
  rcases later_eq a b with h | h <;> rwa [h]

end Number.Fits

/-- What integers may be where alarms are set, -/
def Number.modest : ℕ := 2 ^ 1000

/-- and where they ring. -/
def Number.large : ℕ := modest + modest

theorem Number.modest_le_large : modest ≤ large := Nat.le_add_left modest modest

/-- What is asked of a patience. -/
structure Delays.Patient (d : Delays Number) : Prop where
  positive : ¬d.patience ≤ 0
  fits : d.patience.Fits Number.modest

/-- A time at which alarms may be set. -/
structure Number.Ready (now : Number) : Prop where
  zero_le : 0 ≤ now
  fits : now.Fits modest

/-- A window that is over sooner or later. Events come at `timely` times; `sane last now` is asked
of the time when a report was last acted on and of the time it is; `waits n last now due` of a
deadline of a report that was put off, which may be put off `n` times in all. -/
structure Window.Lapses (window : Number) (timely : Number → Prop) (sane : Number → Number → Prop)
    (waits : ℕ → Number → Number → Number → Prop) : Prop where
  start : sane 0 0
  ready {last now} : sane last now → now.Ready
  acted {last now} : sane last now → sane now now
  moved {last now time} : sane last now → timely time → sane last (later now time)
  fired {last now time due} : sane last now → timely time → ¬time < due →
    sane last (later now due)
  /-- A report that is put off may be put off once more, -/
  putOff {last now} : sane last now →
    (now - last < window ∨ ∃ n due, waits n last now due) →
    waits 2 last now (now + delayed window)
  /-- but not a third time. -/
  again {n last now due} : waits n last now due → later now due - last < window →
    2 ≤ n ∧ waits 1 last (later now due) (later now due + delayed window)
  passes {n last now due time} : waits n last now due →
    ¬due < time ∨ ¬time ≤ time ∨ timely time → waits n last (later now time) due
  due {n last now due} : waits n last now due →
    due ≤ due ∧ due.Fits Number.large ∧ (later now due).Ready

/-- What there is to know of a call on the clock. -/
def Timer.Expected (d : Delays Number) (waits : ℕ → Number → Number → Number → Prop) (n : ℕ)
    (last now : Number) (t : Timer Number Alarm) : Prop :=
  match t.call with
  | .deferred _ => 1 ≤ n ∧ waits n last now t.deadline
  | .giveUp => t.deadline.Fits Number.large ∧ (¬d.patience ≤ d.patience → ¬t.deadline ≤ t.deadline)

/-- The end of an assumption is expected whatever waits. -/
theorem Timer.Expected.of_giveUp {d : Delays Number} {waits : ℕ → Number → Number → Number → Prop}
    {n n' : ℕ} {last last' now now' : Number} {t : Timer Number Alarm}
    (h : t.Expected d waits n last now) (ht : t.call = .giveUp) :
    t.Expected d waits n' last' now' := by
  unfold Timer.Expected at h ⊢
  rw [ht] at h ⊢
  exact h

/-- A world in which at most `m` assumptions and `n` tries of a report are left, and in which the
times are as `sane` has them. -/
structure World.Tame (fine : ο → Prop) (d : Delays Number)
    (waits : ℕ → Number → Number → Number → Prop) (sane : Number → Number → Prop) (m n : ℕ)
    (w : World Number ο) : Prop where
  owner : fine w.rest.owner
  delays : w.rest.view.delays = d
  holds : w.rest.view.Holds w.clock
  inLine : w.clock.InLine (¬d.patience ≤ d.patience)
  timing : w.rest.view.timing.toNat ≤ m
  expected : ∀ t ∈ w.clock.timers, t.Expected d waits n w.rest.view.lastActed w.clock.now
  sane : sane w.rest.view.lastActed w.clock.now
  fits : w.clock.now.Fits Number.large
  shown : ∀ p ∈ Replay.commits w.rest.events, p.1.Fits Number.large

namespace World.Tame

variable {fine : ο → Prop} {d : Delays Number} {waits : ℕ → Number → Number → Number → Prop}
  {sane sane' : Number → Number → Prop} {m m' n n' : ℕ} {w w' : World Number ο}

theorem weaken (h : w.Tame fine d waits sane m n) (hm : m ≤ m')
    (hsane : ∀ {last now}, sane last now → sane' last now) : w.Tame fine d waits sane' m' n :=
  { h with timing := h.timing.trans hm, sane := hsane h.sane }

/-- There is but one assumption at a time. -/
theorem single (h : w.Tame fine d waits sane m n) : w.Tame fine d waits sane 1 n :=
  { h with timing := Bool.toNat_le _ }

/-- Nothing is said about the status, the fallback and the notes. -/
theorem aside (h : w.Tame fine d waits sane m n) (s : Status) (fallback : Option Status)
    (events : List (Event Number)) (hevents : Replay.commits events = Replay.commits w.rest.events) :
    World.Tame fine d waits sane m n { w with
      rest.view.status := s, rest.view.fallback := fallback, rest.events := events } where
  owner := h.owner
  delays := h.delays
  holds := h.holds.of_slots rfl rfl
  inLine := h.inLine
  timing := h.timing
  expected := h.expected
  sane := h.sane
  fits := h.fits
  shown p hp := h.shown p (hevents ▸ hp)

theorem note (k : Note Number) :
    Stays (World.Tame fine d waits sane m n) (TunnelView.note k : Run Number ο Unit) :=
  fun w h => h.aside w.rest.view.status w.rest.view.fallback _ rfl

theorem setFallback (f : View Number → Option Status) : Stays (World.Tame fine d waits sane m n)
    (View.change (fun v => { v with fallback := f v }) : Run Number ο Unit) :=
  fun w h => h.aside w.rest.view.status (f w.rest.view) _ rfl

/-- A report that waits has a deadline on the clock. -/
theorem exists_waits (h : w.Tame fine d waits sane m n) (hdeferring : w.rest.view.deferring) :
    ∃ due, waits n w.rest.view.lastActed w.clock.now due := by
  obtain ⟨i, hi⟩ := Option.isSome_iff_exists.mp hdeferring
  obtain ⟨t, ht, -, s, hs⟩ := h.holds.exists_deferred hi
  have hexpected := h.expected t ht
  rw [Timer.Expected, hs] at hexpected
  exact ⟨t.deadline, hexpected.2⟩

theorem tidied (h : w.Tame fine d waits sane m n) :
    World.Tame fine d waits sane m n { w with clock := w.clock.tidied } :=
  { h with inLine := h.inLine.tidied, holds := h.holds.of_timers rfl rfl }

/-! ### Slots -/

/-- Fewer calls are on the clock, and the slots hold them. -/
theorem fewer (h : w.Tame fine d waits sane m n) {v : View Number} {clock : Clock Number Alarm}
    (hholds : v.Holds clock) (hinLine : clock.InLine (¬d.patience ≤ d.patience))
    (htimers : ∀ t ∈ clock.timers, t ∈ w.clock.timers) (hnow : clock.now = w.clock.now)
    (hdelays : v.delays = w.rest.view.delays) (hacted : v.lastActed = w.rest.view.lastActed)
    (htiming : v.timing.toNat ≤ m') :
    World.Tame fine d waits sane m' n { w with clock, rest.view := v } where
  owner := h.owner
  delays := hdelays.trans h.delays
  holds := hholds
  inLine := hinLine
  timing := htiming
  expected t ht := by
    rw [hacted, hnow]
    exact h.expected t (htimers t ht)
  sane := by
    rw [hacted, hnow]
    exact h.sane
  fits := by
    rw [hnow]
    exact h.fits
  shown := h.shown

theorem cancelTimeout (h : w.Tame fine d waits sane m n) :
    World.Tame fine d waits sane 0 n (View.cancelTimeout w).2 := by
  have hholds := h.holds.cancel .giveUp
  exact h.fewer hholds (h.inLine.cancel _) (fun _ => Slot.mem_of_cancel) (Slot.cancel_now _ _) rfl rfl
    le_rfl

/-- One more call is on the clock, in the slot of its alarm. -/
theorem schedule (h : w.Tame fine d waits sane m n) (a : Alarm) {delay due : Number}
    (hdue : w.clock.now + delayed delay = due) (hplaced : due ≤ due ∨ ¬d.patience ≤ d.patience)
    (hnew : ∀ serial, Timer.Expected d waits n' w.rest.view.lastActed w.clock.now ⟨due, serial, a⟩)
    (hold : ∀ t ∈ ((a.slot w.rest.view).cancel w.clock).2.timers,
      t.Expected d waits n' w.rest.view.lastActed w.clock.now)
    (htiming : (a.put ((a.slot w.rest.view).schedule delay a w.clock).1 w.rest.view).timing.toNat
      ≤ m') :
    World.Tame fine d waits sane m' n' { w with
      clock := ((a.slot w.rest.view).schedule delay a w.clock).2
      rest.view := a.put ((a.slot w.rest.view).schedule delay a w.clock).1 w.rest.view } := by
  have hnow : ((a.slot w.rest.view).schedule delay a w.clock).2.now = w.clock.now :=
    Slot.cancel_now _ _
  constructor
  case owner => exact h.owner
  case delays => exact (Alarm.put_delays ..).trans h.delays
  case holds => exact h.holds.schedule a delay
  case inLine =>
    refine (h.inLine.cancel _).arm a ?_
    rwa [Slot.cancel_now, hdue]
  case timing => exact htiming
  case expected =>
    intro t ht
    show t.Expected d waits n' _ _
    rw [hnow, Alarm.put_lastActed]
    rcases Slot.mem_schedule.mp ht with rfl | ht
    · rw [hdue]
      exact hnew _
    · exact hold t ht
  case sane =>
    show sane _ _
    rw [hnow, Alarm.put_lastActed]
    exact h.sane
  case fits =>
    show Number.Fits _ _
    rw [hnow]
    exact h.fits
  case shown => exact h.shown

theorem startTimeout (h : w.Tame fine d waits sane m n) (hp : d.Patient) (hnow : w.clock.now.Ready) :
    World.Tame fine d waits sane 1 n (View.startTimeout .giveUp d.patience w).2 := by
  have hdelay : w.clock.now + delayed d.patience = w.clock.now + d.patience := by
    rw [Number.delayed_eq hp.positive]
  refine h.schedule .giveUp hdelay ?_ (fun serial => ⟨hnow.fits.add hp.fits, ?_⟩)
    (fun t ht => h.expected t (Slot.mem_of_cancel ht)) (Bool.toNat_le _)
  · by_cases hplaced : d.patience ≤ d.patience
    · left
      exact Number.le_self_of_zero_le
        (Number.zero_le_add hnow.zero_le (Number.zero_le_of_not_le hp.positive hplaced))
    · exact .inr hplaced
  · exact Number.add_nowhere w.clock.now

/-- A report is put off, in place of one that was put off before. -/
theorem putOff (h : w.Tame fine d waits sane m n) (s : Status) (hn : 1 ≤ n')
    (hwaits : waits n' w.rest.view.lastActed w.clock.now (w.clock.now + delayed d.window))
    (hplaced : w.clock.now + delayed d.window ≤ w.clock.now + delayed d.window) :
    World.Tame fine d waits sane m n' (View.putOff (.deferred s) d.window w).2 := by
  refine h.schedule (.deferred s) rfl (.inl hplaced) (fun serial => ⟨hn, hwaits⟩) ?_ h.timing
  intro t ht
  have hgiveUp := (h.holds.cancel (.deferred s)).eq_giveUp rfl ht
  exact (h.expected t (Slot.mem_of_cancel ht)).of_giveUp hgiveUp

/-! ### What a view does -/

theorem resetFallback : Stays (World.Tame fine d waits sane 1 n)
    (View.resetFallback : Run Number ο Unit) := by
  refine Stays.bind (fun w h => ?_) fun _ => setFallback _
  exact h.cancelTimeout.weaken (Nat.zero_le 1) id

section Views

variable {out : Outside Number ο} (hout : out.LooksOn fine)

include hout

theorem commit (s : Status) : Stays (World.Tame fine d waits sane m n) (View.commit out s) := by
  intro w h
  obtain ⟨owner, events, hrun, howner, hcommits⟩ := View.commit_of_looksOn hout h.owner s
  rw [hrun]
  constructor
  case owner => exact howner
  case delays => exact h.delays
  case holds => exact h.holds.of_slots rfl rfl
  case inLine => exact h.inLine
  case timing => exact h.timing
  case expected => exact h.expected
  case sane => exact h.sane
  case fits => exact h.fits
  case shown =>
    intro p hp
    rcases List.mem_cons.mp (hcommits ▸ hp) with rfl | hp
    · exact h.fits
    · exact h.shown p hp

theorem giveUp : Stays (World.Tame fine d waits sane m n) (View.giveUp out) := by
  refine (Stays.of_still fun _ => rfl).bind fun v => ?_
  split
  · exact (setFallback _).bind fun _ => (note _).bind fun _ => commit hout _
  · exact .pure ()

variable (hp : d.Patient) (hready : ∀ {last now}, sane last now → now.Ready)

include hp hready

theorem assume (a : Assumption) :
    Stays (World.Tame fine d waits sane 1 n) (View.assume out a) := by
  refine (Stays.of_still fun _ => rfl).bind fun v => ?_
  split
  · exact note _
  · refine (setFallback _).bind fun _ => (commit hout _).bind fun _ w h => ?_
    rw [View.current_bind, h.delays]
    exact Stays.bind_at (note _ w h) fun _ w₁ _ h₁ => h₁.startTimeout hp (hready h₁.sane)

theorem reveal (s : Status) : Stays (World.Tame fine d waits sane 1 n) (View.reveal out s) := by
  unfold View.reveal
  split
  · exact (assume hout hp hready _).bind fun _ => setFallback _
  · exact commit hout s

theorem act (s : Status) : Stays (World.Tame fine d waits sane 1 n) (View.act out s) := by
  refine (Stays.of_still fun _ => rfl).bind fun v => ?_
  split
  · exact reveal hout hp hready s
  · split
    · refine (note _).bind fun _ => resetFallback.bind fun _ => ?_
      exact reveal hout hp hready s
    · exact (note _).bind fun _ => setFallback _

end Views

/-- A report is acted on, and none is put off. -/
theorem acted (h : w.Tame fine d waits sane m n) (hd : w.rest.view.deferring = false)
    (hsane : sane w.clock.now w.clock.now) :
    World.Tame fine d waits sane m 0 { w with rest.view.lastActed := w.clock.now } := by
  have harmed : w.rest.view.deferral.armed = none := by
    simpa [View.deferring, Slot.pending] using hd
  constructor
  case owner => exact h.owner
  case delays => exact h.delays
  case holds => exact h.holds.of_slots rfl rfl
  case inLine => exact h.inLine
  case timing => exact h.timing
  case expected => exact fun t ht => (h.expected t ht).of_giveUp (h.holds.eq_giveUp harmed ht)
  case sane => exact hsane
  case fits => exact h.fits
  case shown => exact h.shown

/-- A report is ignored, or put off with `k` tries, or acted on. -/
theorem receive {out : Outside Number ο} {k : ℕ} {soon : Prop} (hout : out.LooksOn fine)
    (hp : d.Patient) (hready : ∀ {last now}, sane last now → now.Ready)
    (hacted : ∀ {last now}, sane last now → sane now now) (h : w.Tame fine d waits sane m n)
    (hsoon : w.rest.view.tooSoon w.clock.now → soon) (hk : soon → 1 ≤ k ∧
      waits k w.rest.view.lastActed w.clock.now (w.clock.now + delayed d.window) ∧
      w.clock.now + delayed d.window ≤ w.clock.now + delayed d.window) (s : Status) :
    World.Tame fine d waits sane m n (View.receive out s w).2 ∨
      (soon ∧ World.Tame fine d waits sane m k (View.receive out s w).2) ∨
      World.Tame fine d waits sane 1 0 (View.receive out s w).2 := by
  rw [View.receive_apply, h.delays]
  split_ifs with hclosed hearly
  · exact .inl h
  · obtain ⟨hk, hwaits, hplaced⟩ := hk (hsoon hearly)
    have hnoted := h.aside w.rest.view.status w.rest.view.fallback
      (.log (.debouncing s) :: w.rest.events) rfl
    exact .inr (.inl ⟨hsoon hearly, hnoted.putOff s hk hwaits hplaced⟩)
  · have hd : w.rest.view.deferring = false := by
      simp only [View.tooSoon, Bool.or_eq_true, not_or, Bool.not_eq_true] at hearly
      exact hearly.2
    exact .inr (.inr (act hout hp hready s _ (h.acted hd (hacted h.sane)).single))

/-! ### Alarms -/

/-- A call falls due, and its slot is emptied. -/
theorem popped (h : w.Tame fine d waits sane m n) {limit : Option Number} {t : Timer Number Alarm}
    {clock : Clock Number Alarm} (hpop : w.clock.popDue limit = (some t, clock))
    (hfits : t.deadline.Fits Number.large) (hsane : sane' w.rest.view.lastActed clock.now)
    (htiming : (w.rest.view.without t.call).timing.toNat ≤ m')
    (hexpected : ∀ u ∈ clock.timers, u.Expected d waits n' w.rest.view.lastActed clock.now) :
    World.Tame fine d waits sane' m' n'
      { w with clock, rest.view := w.rest.view.without t.call } := by
  constructor
  case owner => exact h.owner
  case delays => exact (Alarm.without_delays ..).trans h.delays
  case holds => exact (h.holds.popDue hpop).2
  case inLine => exact (h.inLine.popDue hpop).1
  case timing => exact htiming
  case expected =>
    show ∀ u ∈ clock.timers, u.Expected d waits n' _ clock.now
    rwa [Alarm.without_lastActed]
  case sane =>
    show sane' _ clock.now
    rwa [Alarm.without_lastActed]
  case fits =>
    obtain ⟨-, rfl, -⟩ := Clock.popDue_fired hpop
    exact h.fits.later hfits
  case shown => exact h.shown

section Fire

variable {out : Outside Number ο} {timely : Number → Prop} {limit : Option Number}
  {t : Timer Number Alarm} {clock : Clock Number Alarm}

/-- An assumption that runs out uses up its end. What waits for a later deadline goes on waiting. -/
theorem fire_giveUp (hlapses : Window.Lapses d.window timely sane waits) (hout : out.LooksOn fine)
    (h : w.Tame fine d waits sane' m n) (hpop : w.clock.popDue limit = (some t, clock))
    (hcall : t.call = .giveUp) (hsane : sane' w.rest.view.lastActed clock.now) :
    1 ≤ m ∧ World.Tame fine d waits sane' 0 n (View.fire out t { w with clock }).2 := by
  obtain ⟨hmem, -, -⟩ := Clock.popDue_some hpop
  obtain ⟨-, hclock, -⟩ := Clock.popDue_fired hpop
  have hheld := (h.holds.popDue hpop).1
  have hown := h.expected t hmem
  rw [Timer.Expected, hcall] at hown
  have hpopped : World.Tame fine d waits sane' 0 n
      { w with clock, rest.view := w.rest.view.without t.call } := by
    refine h.popped hpop hown.1 hsane ?_ fun u hu => ?_
    · rw [hcall]
      exact le_rfl
    · have hexpected := h.expected u (Clock.mem_of_popDue hpop hu)
      have hlater := (h.inLine.popDue hpop).2 u hu
      rcases u with ⟨due, serial, s | _⟩
      · rw [hclock]
        exact ⟨hexpected.1, hlapses.passes hexpected.2 (hlater.imp_right fun haim =>
          .inl (hown.2 haim))⟩
      · exact hexpected
  rw [View.fire_apply, if_pos hheld]
  rw [hcall] at hheld hpopped ⊢
  refine ⟨?_, giveUp hout _ hpopped⟩
  have htiming : w.rest.view.timing = true := by
    rw [View.timing, Slot.pending, show w.rest.view.timeout.armed = some t.serial from hheld]
    rfl
  have hm := h.timing
  rwa [htiming] at hm

/-- A report that was put off is acted on when its alarm rings, or it is put off for the last time.
-/
theorem fire_deferred (hlapses : Window.Lapses d.window timely sane waits)
    (hout : out.LooksOn fine) (hp : d.Patient) (h : w.Tame fine d waits sane' m n)
    (hpop : w.clock.popDue limit = (some t, clock)) {s : Status} (hcall : t.call = .deferred s)
    (hsane : sane' w.rest.view.lastActed clock.now)
    (hacted : ∀ {last now}, sane' last now → sane' now now) :
    ∃ m' n', World.Tame fine d waits sane' m' n' (View.fire out t { w with clock }).2 ∧
      m' + 3 * n' < m + 3 * n := by
  obtain ⟨-, hclock, -⟩ := Clock.popDue_fired hpop
  have hnow : clock.now = later w.clock.now t.deadline := by
    rw [hclock]
    rfl
  obtain ⟨hheld, hholds⟩ := h.holds.popDue hpop
  have hown := h.expected t (Clock.popDue_some hpop).1
  rw [Timer.Expected, hcall] at hown
  obtain ⟨hn, hwaits⟩ := hown
  obtain ⟨-, hfits, hready⟩ := hlapses.due hwaits
  rw [← hnow] at hready
  let ready : Number → Number → Prop := fun last now => sane' last now ∧ now.Ready
  have hpopped : World.Tame fine d waits ready m 0
      { w with clock, rest.view := w.rest.view.without t.call } := by
    rw [hcall] at hholds
    refine h.popped hpop hfits ⟨hsane, hready⟩ ?_ fun u hu => ?_
    · rw [hcall]
      exact h.timing
    · exact (h.expected u (Clock.mem_of_popDue hpop hu)).of_giveUp (hholds.eq_giveUp rfl hu)
  rw [View.fire_apply, if_pos hheld]
  rw [hcall] at hpopped ⊢
  have hsoon : (w.rest.view.without (.deferred s)).tooSoon clock.now →
      later w.clock.now t.deadline - w.rest.view.lastActed < d.window := by
    intro htoo
    rw [← hnow, ← h.delays]
    rw [View.tooSoon, show (w.rest.view.without (.deferred s)).deferring = false from rfl,
      Bool.or_false] at htoo
    exact of_decide_eq_true htoo
  have hagain : later w.clock.now t.deadline - w.rest.view.lastActed < d.window → 1 ≤ 1 ∧
      waits 1 w.rest.view.lastActed clock.now (clock.now + delayed d.window) ∧
      clock.now + delayed d.window ≤ clock.now + delayed d.window := by
    intro hearly
    have hlast := (hlapses.again hwaits hearly).2
    rw [← hnow] at hlast
    exact ⟨le_rfl, hlast, (hlapses.due hlast).1⟩
  rcases receive hout hp And.right (fun h => ⟨hacted h.1, h.2⟩) hpopped hsoon hagain s with
    hdone | ⟨hearly, hdone⟩ | hdone
  · exact ⟨m, 0, hdone.weaken le_rfl And.left, by omega⟩
  · have htwo := (hlapses.again hwaits hearly).1
    exact ⟨m, 1, hdone.weaken le_rfl And.left, by omega⟩
  · exact ⟨1, 0, hdone.weaken le_rfl And.left, by omega⟩

/-- **Every alarm that rings comes back and uses something up.** -/
theorem fire (h : w.Tame fine d waits sane' m n)
    (hlapses : Window.Lapses d.window timely sane waits) (hout : out.LooksOn fine)
    (hp : d.Patient) (hacted : ∀ {last now}, sane' last now → sane' now now)
    (hpop : w.clock.popDue limit = (some t, clock)) (hsane : sane' w.rest.view.lastActed clock.now) :
    ∃ m' n' w', View.fire out t { w with clock } = (.ok (), w') ∧
      World.Tame fine d waits sane' m' n' w' ∧ m' + 3 * n' < m + 3 * n := by
  have hok := (HaltsOnly.fire hout t).eq_ok (w := { w with clock }) h.owner
  cases hcall : t.call with
  | deferred s =>
    obtain ⟨m', n', hdone, hless⟩ := h.fire_deferred hlapses hout hp hpop hcall hsane hacted
    exact ⟨m', n', _, Prod.ext hok rfl, hdone, hless⟩
  | giveUp =>
    obtain ⟨hm, hdone⟩ := h.fire_giveUp hlapses hout hpop hcall hsane
    exact ⟨0, n, _, Prod.ext hok rfl, hdone, by omega⟩

/-! ### Moving time -/

/-- **Firing what is due by a limit comes to an end**, by induction on the firings left. -/
theorem drain (h : w.Tame fine d waits sane' m n)
    (hlapses : Window.Lapses d.window timely sane waits) (hout : out.LooksOn fine)
    (hp : d.Patient) (hacted : ∀ {last now}, sane' last now → sane' now now)
    (hfired : ∀ {last now due}, sane' last now → (∀ time ∈ limit, ¬time < due) →
      sane' last (later now due)) {fuel : ℕ} (hfuel : m + 3 * n < fuel) :
    ∃ m' n' w', Timed.drain (View.fire out) limit fuel w = (.ok (), w') ∧
      World.Tame fine d waits sane' m' n' w' ∧ m' + 3 * n' ≤ m + 3 * n := by
  induction fuel generalizing w m n with
  | zero => omega
  | succ fuel ih =>
    rw [Timed.drain, Act.bind_apply]
    rcases hpop : w.clock.popDue limit with ⟨_ | t, clock⟩
    · rw [Timed.popDue_apply hpop]
      obtain rfl := Clock.popDue_of_none hpop
      exact ⟨m, n, _, rfl, h.tidied, le_rfl⟩
    · rw [Timed.popDue_apply hpop]
      obtain ⟨-, hclock, hlimit⟩ := Clock.popDue_fired hpop
      have hsane : sane' w.rest.view.lastActed clock.now := by
        rw [hclock]
        exact hfired h.sane hlimit
      obtain ⟨m₁, n₁, w₁, hfire, hdone, hless⟩ := h.fire hlapses hout hp hacted hpop hsane
      obtain ⟨m', n', w', hrun, hend, hle⟩ := ih hdone (by omega)
      refine ⟨m', n', w', ?_, hend, by omega⟩
      dsimp only
      rw [Act.bind_apply, hfire]
      exact hrun

/-- Firing until nothing is pending comes to an end. -/
theorem drainAll (h : w.Tame fine d waits (fun _ _ => True) m n)
    (hlapses : Window.Lapses d.window timely sane waits) (hout : out.LooksOn fine)
    (hp : d.Patient) (most : ℤ) {fuel : ℕ} (hfuel : m + 3 * n < fuel) :
    ∃ m' n' w', Timed.drainAll (View.fire out) most fuel w = (.ok (), w') ∧
      World.Tame fine d waits (fun _ _ => True) m' n' w' := by
  induction fuel generalizing w m n with
  | zero => omega
  | succ fuel ih =>
    rw [Timed.drainAll, Act.bind_apply]
    rcases hpop : w.clock.popDue none with ⟨_ | t, clock⟩
    · rw [Timed.popDue_apply hpop]
      obtain rfl := Clock.popDue_of_none hpop
      exact ⟨m, n, _, rfl, h.tidied⟩
    · rw [Timed.popDue_apply hpop]
      obtain ⟨m₁, n₁, w₁, hfire, hdone, hless⟩ :=
        h.fire hlapses hout hp (fun _ => trivial) hpop trivial
      obtain ⟨m', n', w', hrun, hend⟩ := ih hdone (by omega)
      refine ⟨m', n', w', ?_, hend⟩
      dsimp only
      rw [Act.bind_apply, hfire]
      exact hrun

/-- Going to the time of an event comes to an end, and leaves the times sane. -/
theorem advanceTo (h : w.Tame fine d waits sane m n)
    (hlapses : Window.Lapses d.window timely sane waits) (hout : out.LooksOn fine)
    (hp : d.Patient) {time : Number} (htime : timely time) {fuel : ℕ} (hfuel : m + 3 * n < fuel) :
    ∃ m' n' w', Timed.advanceTo (View.fire out) fuel time w = (.ok (), w') ∧
      World.Tame fine d waits sane m' n' w' ∧ m' + 3 * n' ≤ m + 3 * n := by
  have hfired : ∀ {last now due : Number}, sane last now → (∀ t ∈ some time, ¬t < due) →
      sane last (later now due) := fun hsane hdue => hlapses.fired hsane htime (hdue time rfl)
  obtain ⟨m', n', w', hrun, hend, hle⟩ := h.drain hlapses hout hp hlapses.acted hfired hfuel
  have hmoved := hlapses.moved hend.sane htime
  refine ⟨m', n', { w' with clock := w'.clock.moveTo time }, ?_, ?_, hle⟩
  · rw [Timed.advanceTo, Act.bind_apply, hrun]
    rfl
  · constructor
    case owner => exact hend.owner
    case delays => exact hend.delays
    case holds => exact hend.holds.of_timers rfl rfl
    case inLine => exact hend.inLine.moveTo time
    case timing => exact hend.timing
    case expected =>
      intro t ht
      have hexpected := hend.expected t ht
      rcases t with ⟨due, serial, s | _⟩
      · exact ⟨hexpected.1, hlapses.passes hexpected.2 (.inr (.inr htime))⟩
      · exact hexpected
    case sane => exact hmoved
    case fits => exact (hlapses.ready hmoved).fits.mono Number.modest_le_large
    case shown => exact hend.shown

end Fire

end World.Tame
end TunnelView
