import TunnelView.Proofs.Convergence
import TunnelView.Proofs.Steps

/-!
# Views that are interrupted

Whoever is shown a status may interrupt the run, and no guard holds an interrupt back, so what the
operation had still to do is left undone. When a report or a fallback is shown there is nothing left
to do. When an assumption is, the call that gives it up has still to be set: after an interrupt the
view may be stuck, with an assumption on show that nobody gives up. A report that does not settle
such an assumption becomes its fallback, and stays behind it.

So the last report is on show in the end, whatever was interrupted before it came in, unless the view
is stuck when it comes in and it does not settle the assumption; and a view is never stuck if no
showing of an assumption is interrupted.

Key definitions: `Watch.Stuck`, `Watch.Frees`, `Watch.Bars`, `World.Hale`, `View.Stuck`.
Key theorems: `Watch.Frees.lasting`, `Watch.Bars.lasting`, `Watch.shown_in_the_end`,
`World.Hale.op`, `Session.recovers_unless_stuck`, `Session.barred_by_assumption`.
-/

namespace TunnelView

variable {τ ο σ : Type}

/-! ### Assumptions that nobody gives up -/

/-- An assumption is on show that nobody gives up. -/
def View.Stuck (v : View τ) : Prop := v.fallback.isSome ∧ v.timing = false

namespace Watch

/-- An assumption is on show that nobody gives up. -/
def Stuck (m : Watch τ) : Prop := m.fallback.isSome ∧ m.deadline = none

section Stuck

variable {m : Watch τ}

theorem not_stuck_of_unassuming (h : m.fallback = none) : ¬m.Stuck := fun hs => by
  have hf := hs.1
  rw [h] at hf
  contradiction

theorem not_stuck_of_timed (h : m.deadline.isSome) : ¬m.Stuck := fun hs => by
  rw [hs.2] at h
  contradiction

theorem not_stuck_giveUp (m : Watch τ) : ¬m.giveUp.Stuck := by
  unfold Watch.giveUp
  cases hf : m.fallback with
  | none => exact not_stuck_of_unassuming hf
  | some s => exact not_stuck_of_unassuming rfl

end Stuck

variable [AddCommGroup τ] {d : Delays τ} {m : Watch τ} {s : Status} {t : τ}

/-- What is shown with nothing behind it leaves nothing stuck. -/
theorem not_stuck_reveal (hc : m.closed = false) (hf : m.fallback = none) (s : Status) :
    ¬(m.reveal d s).Stuck := by
  unfold Watch.reveal Watch.assume
  rw [hc]
  by_cases hs : s.isReconnecting
  · rw [if_pos hs]
    exact not_stuck_of_timed rfl
  · rw [if_neg hs]
    exact not_stuck_of_unassuming hf

/-- A report that passes leaves a watch stuck only if it was, and if the report does not settle the
assumption. -/
theorem not_stuck_pass (hc : m.closed = false) (h : m.Stuck → m.settles s) :
    ¬(m.pass d s).Stuck := by
  unfold Watch.pass Watch.act
  by_cases hf : m.fallback.isNone
  · rw [if_pos hf]
    exact not_stuck_reveal (m := { m with deferred := none, lastActed := m.now }) hc
      (Option.isNone_iff_eq_none.mp hf) s
  · rw [if_neg hf]
    split
    · exact not_stuck_reveal (m := drop { m with deferred := none, lastActed := m.now }) hc rfl s
    · rename_i hs
      refine fun hstuck => hs (h ⟨?_, hstuck.2⟩)
      rwa [← Option.not_isNone, Bool.not_eq_true', ← Bool.not_eq_true]

/-- A report that passes and does not settle an assumption that nobody gives up stays behind it. -/
theorem pass_of_stuck (h : m.Stuck) (hs : m.settles s = false) :
    m.pass d s = { m with deferred := none, lastActed := m.now, fallback := some s } := by
  have hf : ¬m.fallback.isNone := by
    rw [← Option.not_isSome, h.1]
    exact Bool.false_ne_true
  unfold Watch.pass Watch.act
  rw [if_neg hf, if_neg (by rw [Watch.settles] at hs ⊢; simpa using hs)]

/-- A report is owed, and nothing will be stuck once it passes. -/
def Frees (s : Status) (m : Watch τ) : Prop :=
  m.Owes s ∧ (m.Stuck → m.deferred.isSome ∧ m.settles s)

/-- A report is owed, but behind an assumption that nobody gives up and that it does not settle. -/
def Bars (s : Status) (m : Watch τ) : Prop := m.Owes s ∧ m.Stuck ∧ m.settles s = false

variable [LinearOrder τ]

omit [AddCommGroup τ] in
/-- A report whose deadline comes is the one that is owed. -/
theorem Owes.eq_of_next? {s' : Status} (h : m.Owes s) (hn : m.next? = some (t, .report s')) :
    s' = s := by
  have hdeferred := deferred_of_next? hn
  obtain ⟨-, ⟨u, hu⟩ | ⟨hd, -⟩⟩ := h
  · rw [hdeferred] at hu
    exact congrArg Prod.fst (Option.some.inj hu)
  · rw [hdeferred] at hd
    contradiction

theorem Frees.lasting (s : Status) : Lasting d (Frees s : Watch τ → Prop) where
  ring {m t b} h hn := by
    refine ⟨h.1.ring hn, fun hstuck => ?_⟩
    cases b with
    | report s' =>
      obtain rfl := h.1.eq_of_next? hn
      exact absurd hstuck (not_stuck_pass (m := m.wait t) h.1.1 fun hs => (h.2 hs).2)
    | giveUp => exact absurd hstuck (not_stuck_giveUp _)
  wait h _ := h

theorem Bars.lasting (s : Status) : Lasting d (Bars s : Watch τ → Prop) where
  ring {m t b} h hn := by
    obtain ⟨howes, hstuck, hs⟩ := h
    refine ⟨howes.ring hn, ?_⟩
    cases b with
    | report s' =>
      obtain rfl := howes.eq_of_next? hn
      have hpass : m.ring d t (.report s') = _ := pass_of_stuck (m := m.wait t) hstuck hs
      rw [hpass]
      exact ⟨⟨rfl, hstuck.2⟩, hs⟩
    | giveUp =>
      exact absurd ((deadline_of_next? hn).symm.trans hstuck.2) nofun
  wait h _ := h

omit [AddCommGroup τ] in
/-- With nothing pending any more, what frees the view is on show. -/
theorem Frees.of_idle (h : m.Frees s) (hn : m.next? = none) :
    m.status = s ∧ m.fallback = none := by
  obtain ⟨hd, hu⟩ := next?_eq_none_iff.mp hn
  have hf : m.fallback = none := by
    by_contra hf
    have hwaits := (h.2 ⟨Option.isSome_iff_ne_none.mpr hf, hu⟩).1
    rw [hd] at hwaits
    contradiction
  exact ⟨h.1.status_eq hn hf, hf⟩

/-- A report that comes in is owed, and it frees the view unless that is stuck behind an assumption
that the report does not settle. -/
theorem frees_or_bars (hc : m.closed = false) (d : Delays τ) (s : Status) :
    (m.Stuck → m.settles s) ∧ (m.receive d s).Frees s ∨
      ¬(m.Stuck → m.settles s) ∧ (m.receive d s).Bars s := by
  have howes : (m.receive d s).Owes s := .receive hc s
  by_cases hs : m.Stuck → m.settles s
  · refine .inl ⟨hs, howes, fun hstuck => ?_⟩
    revert hstuck
    unfold Watch.receive
    rw [hc, if_neg Bool.false_ne_true]
    split
    · exact fun hstuck => ⟨rfl, hs hstuck⟩
    · exact fun hstuck => absurd hstuck (not_stuck_pass hc hs)
  · obtain ⟨hstuck, hbars⟩ := Classical.not_imp.mp hs
    have hbars : m.settles s = false := Bool.eq_false_iff.mpr hbars
    refine .inr ⟨hs, howes, ?_⟩
    unfold Watch.receive
    rw [hc, if_neg Bool.false_ne_true]
    split
    · exact ⟨hstuck, hbars⟩
    · rw [pass_of_stuck hstuck hbars]
      exact ⟨⟨rfl, hstuck.2⟩, hbars⟩

/-- **A report is on show in the end just if nothing is stuck that it does not settle.** After it
time passes until nothing is pending. -/
theorem shown_in_the_end (hc : m.closed = false) (s : Status) {ops : List (Op τ)}
    (hops : ∀ op ∈ ops, op.movesClock) :
    let m' := ((m.receive d s).after d ops).drain d none
    (m'.status = s ∧ m'.fallback = none ↔ (m.Stuck → m.settles s)) := by
  intro m'
  have hnext : m'.next? = none := next?_drain _
  obtain ⟨hs, hfrees⟩ | ⟨hs, hbars⟩ := frees_or_bars hc d s
  · have hrest : m'.Frees s := (Frees.lasting s).drain ((Frees.lasting s).after hfrees hops) none
    exact iff_of_true (hrest.of_idle hnext) hs
  · have hrest : m'.Bars s := (Bars.lasting s).drain ((Bars.lasting s).after hbars hops) none
    exact iff_of_false (fun hshown => not_stuck_of_unassuming hshown.2 hrest.2.1) hs

end Watch

/-! ### What interrupts leave behind -/

section Hale

variable [AddCommGroup τ] [LinearOrder τ] {fine : ο → Prop} {safe : Status → Prop} {d : Delays τ}
  {out : Outside τ ο} {w : World τ ο} {m : Watch τ} {s : Status}

/-- What an open view keeps to although it is interrupted: its calls are its deadlines, and unless
the showing of an assumption can be interrupted nothing is stuck. -/
structure Watch.Hale (safe : Status → Prop) (d : Delays τ) (m : Watch τ) : Prop where
  ripe : m.Ripe d
  opened : m.closed = false
  unstuck : (∀ a : Assumption, safe a.status) → ¬m.Stuck

/-- A world that matches a watch which is hale. -/
def World.Hale (fine : ο → Prop) (safe : Status → Prop) (d : Delays τ) (w : World τ ο) : Prop :=
  ∃ m : Watch τ, Matches fine d w m ∧ m.Hale safe d

namespace World.Hale

theorem note (h : w.Hale fine safe d) (n : Note τ) : (w.record (.log n)).Hale fine safe d := by
  obtain ⟨m, hm, hhale⟩ := h
  exact ⟨m, (hm.note n).2, hhale⟩

theorem commit (hout : out.Attends fine safe) (s : Status) :
    Stays (World.Hale fine safe d) (View.commit out s) := by
  rintro w ⟨m, hm, hhale⟩
  exact ⟨m.commit s, (hm.commit_attended hout s).1, hhale.ripe.commit s, hhale.opened, hhale.unstuck⟩

theorem resetFallback : Stays (World.Hale fine safe d) (View.resetFallback : Run τ ο Unit) := by
  rintro w ⟨m, hm, hhale⟩
  exact ⟨m.drop, hm.drop.2, hhale.ripe.drop, hhale.opened,
    fun _ => Watch.not_stuck_of_unassuming rfl⟩

/-- Another fallback leaves nothing stuck if there is one already, or if it is timed. -/
theorem keep (h : w.Hale fine safe d)
    (hf : w.rest.view.fallback.isSome ∨ w.rest.view.timing) (s : Status) :
    World.Hale fine safe d { w with rest.view.fallback := some s } := by
  obtain ⟨m, hm, hhale⟩ := h
  refine ⟨_, (hm.setFallback (some s)).2, hhale.ripe.keep hhale.opened _, hhale.opened, ?_⟩
  intro hsafe hstuck
  rcases hf with hf | ht
  · rw [hm.fallback] at hf
    exact hhale.unstuck hsafe ⟨hf, hstuck.2⟩
  · rw [hm.timing, hstuck.2] at ht
    contradiction

/-- An assumption is timed, unless the run is interrupted before it is. -/
theorem assume (hout : out.Attends fine safe) (hp : 0 < d.patience) (a : Assumption)
    (h : w.Hale fine safe d) : (View.assume out a w).2.Hale fine safe d ∧
      ((View.assume out a w).1 = .ok () → (View.assume out a w).2.rest.view.timing) := by
  obtain ⟨m, hm, hhale⟩ := h
  let kept : World τ ο := { w with rest.view.fallback := some w.rest.view.status }
  have hkept : Matches fine d kept { m with fallback := some m.status } :=
    { hm with fallback := congrArg some hm.status }
  have hripe := (hhale.ripe.keep hhale.opened (some m.status)).commit a.status
  obtain ⟨hshown, hends⟩ := hkept.commit_attended hout a.status
  rw [View.assume_apply (hm.closed.trans hhale.opened), Act.bind_apply]
  rcases hrun : View.commit out a.status kept with ⟨stop | _, w₁⟩
  · -- the assumption is shown, but not timed anew
    rw [hrun] at hshown hends
    refine ⟨⟨_, hshown, hripe, hhale.opened, fun hsafe => ?_⟩, nofun⟩
    exact absurd (hends (hsafe a)) nofun
  · rw [hrun] at hshown
    obtain rfl : w₁.rest.view.delays = d := hshown.delays
    let expecting := Note.expecting a w₁.rest.view.fallback w₁.rest.view.delays.patience
    have hset := ((hshown.note expecting).2.startTimeout hp).2
    refine ⟨⟨_, hset, { hripe with closed := fun hc => ?_ }, hhale.opened, fun _ => ?_⟩, fun _ => ?_⟩
    · exact absurd (hhale.opened.symm.trans hc) nofun
    · exact Watch.not_stuck_of_timed rfl
    · exact hset.timing

theorem reveal (hout : out.Attends fine safe) (hp : 0 < d.patience) (s : Status) :
    Stays (World.Hale fine safe d) (View.reveal out s) := by
  intro w hw
  unfold View.reveal
  by_cases hs : s.isReconnecting
  · rw [if_pos hs]
    obtain ⟨hassumed, htimed⟩ := hw.assume hout hp .connecting
    refine Stays.bind_at hassumed fun _ w₁ hrun hw₁ => hw₁.keep (.inr ?_) s
    rw [hrun] at htimed
    exact htimed rfl
  · rw [if_neg hs]
    exact commit hout s w hw

theorem act (hout : out.Attends fine safe) (hp : 0 < d.patience) (s : Status) :
    Stays (World.Hale fine safe d) (View.act out s) := by
  intro w hw
  rw [View.act, View.current_bind]
  by_cases hf : w.rest.view.fallback.isNone
  · rw [if_pos hf]
    exact reveal hout hp s w hw
  · rw [if_neg hf]
    split
    · exact reveal hout hp s _ (resetFallback _ (hw.note (.confirmed s)))
    · refine (hw.note (.stored s)).keep (.inl ?_) s
      rwa [← Option.not_isNone, Bool.not_eq_true', ← Bool.not_eq_true]

variable [IsOrderedAddMonoid τ]

theorem receive (hout : out.Attends fine safe) (hw : 0 < d.window) (hp : 0 < d.patience)
    (s : Status) : Stays (World.Hale fine safe d) (View.receive out s) := by
  rintro w ⟨m, hm, hhale⟩
  rw [View.receive_apply, hm.closed, hhale.opened, if_neg Bool.false_ne_true, hm.tooSoon]
  by_cases hs : m.tooSoon d
  · rw [if_pos hs, hm.delays]
    exact ⟨_, ((hm.note (.debouncing s)).2.putOff hw s).2, hhale.ripe.putOff hhale.opened s,
      hhale.opened, hhale.unstuck⟩
  · rw [if_neg hs]
    have hd : m.deferred = none := Watch.deferred_of_not_tooSoon hs
    refine act hout hp s _ ⟨_, (hm.setActed w.clock.now).2, ?_, hhale.opened, hhale.unstuck⟩
    refine { hhale.ripe with acted := hm.now.le, gate := fun s' t hs' => ?_ }
    rw [hd] at hs'
    contradiction

omit [IsOrderedAddMonoid τ] in
/-- An assumption that is given up leaves nothing stuck. -/
theorem giveUp (hout : out.Attends fine safe) (hm : Matches fine d w m) (hripe : m.Ripe d)
    (hopen : m.closed = false) : (View.giveUp out w).2.Hale fine safe d := by
  rw [View.giveUp_apply, hm.closed, hopen, hm.fallback]
  cases hf : m.fallback with
  | none => exact ⟨m, hm, hripe, hopen, fun _ => Watch.not_stuck_of_unassuming hf⟩
  | some s =>
    refine commit hout s _ (World.Hale.note ⟨_, (hm.setFallback none).2, ?_⟩ _)
    exact ⟨hripe.keep hopen none, hopen, fun _ => Watch.not_stuck_of_unassuming rfl⟩

/-- A call that falls due, from taking it off the clock to its end. -/
theorem fire (hout : out.Attends fine safe) (hw : 0 < d.window) (hp : 0 < d.patience)
    {limit : Option τ} {t : Timer τ Alarm} {clock : Clock τ Alarm} (h : w.Hale fine safe d)
    (hpop : w.clock.popDue limit = (some t, clock)) :
    (View.fire out t { w with clock }).2.Hale fine safe d := by
  obtain ⟨m, hm, hhale⟩ := h
  rcases hd : m.due? limit with _ | ⟨u, b⟩
  · have hnone := (hm.popDue_eq_none limit).mpr hd
    rw [hpop] at hnone
    contradiction
  obtain ⟨call, clock', hpop', -, -, -, w₁, hfire, h₁⟩ := hm.claims hd
  obtain ⟨hcall, rfl⟩ := Prod.mk.inj (hpop.symm.trans hpop')
  obtain rfl := Option.some.inj hcall
  rw [hfire]
  cases b with
  | report s =>
    exact receive hout hw hp s w₁ ⟨_, h₁, hhale.ripe.reach u _, hhale.opened, hhale.unstuck⟩
  | giveUp => exact giveUp hout h₁ (hhale.ripe.reach u .giveUp) hhale.opened

end World.Hale

/-! ### Sessions -/

section Sessions

variable [IsOrderedAddMonoid τ] {host : Host τ σ}

/-- **A view stays hale whatever is interrupted**, as long as nobody closes it. -/
theorem World.Hale.op (hhost : host.CallsNothing) (hw : 0 < d.window) (hp : 0 < d.patience)
    {fuel : ℕ} (hf : fuel ≠ 0) {op : Op τ} (hop : op.onView) (hc : op.closes = false) :
    Stays (World.Hale Client.Undisturbed host.Spares d) (op.run (outside host fuel) fuel) := by
  obtain ⟨n, rfl⟩ := Nat.exists_eq_succ_of_ne_zero hf
  have hout := outside_attends hhost n
  have htidied : ∀ {w : World τ (Client σ)}, w.Hale Client.Undisturbed host.Spares d →
      World.Hale Client.Undisturbed host.Spares d { w with clock := w.clock.tidied } :=
    fun ⟨m, hm, hhale⟩ => ⟨m, hm.tidied, hhale⟩
  have hmove : ∀ {w : World τ (Client σ)} t, w.Hale Client.Undisturbed host.Spares d →
      World.Hale Client.Undisturbed host.Spares d { w with clock := w.clock.moveTo t } :=
    fun t ⟨m, hm, hhale⟩ =>
      ⟨m.wait t, (hm.wait t).2, hhale.ripe.wait t, hhale.opened, hhale.unstuck⟩
  have hfire : ∀ {w : World τ (Client σ)} {limit t clock},
      w.Hale Client.Undisturbed host.Spares d → w.clock.popDue limit = (some t, clock) →
      (View.fire (outside host (n + 1)) t { w with clock }).2.Hale Client.Undisturbed host.Spares d :=
    fun h hpop => h.fire hout hw hp hpop
  cases op <;> simp only [Op.onView, Bool.false_eq_true] at hop
  case notify r =>
    simp only [Op.run]
    cases r.read with
    | error fault => exact .stop _
    | ok s => exact (World.Hale.receive hout hw hp s).silently
  case expect kind =>
    refine Stays.silently ?_
    unfold View.expect
    cases Assumption.ofValue? kind with
    | none => exact .stop _
    | some a => exact fun w h => (h.assume hout hp a).1
  case reset => exact World.Hale.resetFallback.silently
  case close => contradiction
  case closeView => contradiction
  case advance delta => exact (Stays.advance htidied hfire hmove _ delta).silently
  case advanceTo time => exact (Stays.advanceTo htidied hfire hmove _ time).silently
  case idle most => exact (Stays.drainAll htidied hfire most _).silently

theorem World.Hale.after (hhost : host.CallsNothing) (hw : 0 < d.window) (hp : 0 < d.patience)
    {fuel : ℕ} (hf : fuel ≠ 0) {ops : List (Op τ)}
    (hops : ∀ op ∈ ops, op.onView ∧ op.closes = false) {w : World τ (Client σ)}
    (h : w.Hale Client.Undisturbed host.Spares d) :
    (Session.after host fuel ops w).Hale Client.Undisturbed host.Spares d := by
  induction ops generalizing w with
  | nil => exact h
  | cons op ops ih =>
    obtain ⟨hop, hc⟩ := hops op (by simp)
    exact ih (fun op hop => hops op (by simp [hop])) (World.Hale.op hhost hw hp hf hop hc w h)

/-- **After interrupts a report is on show in the end, unless the view is stuck.** Before the report
whoever is shown a status may interrupt the operation, and any number of operations are interrupted;
from the report on nobody interrupts, and time passes until nothing is pending. Then the report is on
show, with nothing assumed, just if it settles the assumption that nobody gave up when it came in,
or if there was none; and there is none if no showing of an assumption is ever interrupted. -/
theorem Session.recovers_unless_stuck {calm : Host τ σ} (hhost : host.CallsNothing)
    (hcalm : calm.LooksOn) (hw : 0 < d.window) (hp : 0 < d.patience) {fuel : ℕ} (hf : 4 ≤ fuel)
    {client : Client σ} (hc : client.Undisturbed) (now : τ) {before after : List (Op τ)}
    (hbefore : ∀ op ∈ before, op.onView ∧ op.closes = false) {r : Report} {s : Status}
    (hr : r.read = .ok s) (hafter : ∀ op ∈ after, op.movesClock) {most : ℤ} (hmost : 4 ≤ most) :
    let w := Session.after host fuel before (Session.start d now client)
    let v := w.rest.view
    let idle := (Op.idle most).run (outside calm fuel) fuel
      (Session.after calm fuel (.notify r :: after) w)
    idle.1 = .ok .nothing ∧ idle.2.clock.pending = 0 ∧
      (idle.2.rest.view.status = s ∧ idle.2.rest.view.fallback = none ↔
        (v.Stuck → v.settles s)) ∧
      ((∀ a : Assumption, host.Spares a.status) → ¬v.Stuck) := by
  intro w v idle
  obtain ⟨m, hm, hhale⟩ : w.Hale Client.Undisturbed host.Spares d := by
    refine World.Hale.after hhost hw hp (by omega) hbefore ⟨_, Matches.start client hc now, ?_⟩
    exact ⟨.start now, rfl, fun _ => Watch.not_stuck_of_unassuming rfl⟩
  have hstuck : v.Stuck ↔ m.Stuck := by
    rw [View.Stuck, Watch.Stuck, hm.fallback, hm.timing, ← Option.isNone_iff_eq_none]
    simp
  have hsettles : v.settles s = m.settles s := by
    rw [View.settles, Watch.settles, hm.status]
  -- from the report on the view keeps step with its watch, which comes to rest
  let m₁ := m.receive d s
  let m₂ := (m₁.after d after).drain d none
  have hops : ∀ op ∈ Op.notify r :: after, op.onView := List.forall_mem_cons.mpr
    ⟨rfl, fun op hop => Op.onView_of_movesClock (hafter op hop)⟩
  have hrun : m.after d (.notify r :: after) = m₁.after d after := by
    show Watch.after d after (m.runOp d (.notify r)).2 = _
    rw [Watch.runOp, hr]
  have hsteps := hm.after hhale.ripe hcalm hw hp hf hops
  have hripe : (m.after d (.notify r :: after)).Ripe d := Watch.Ripe.kept.after hhale.ripe _
  obtain ⟨houtcome, hend⟩ := hsteps.runOp hripe hcalm hw hp hf (show (Op.idle most).onView from rfl)
  rw [Watch.runOp_idle hmost] at houtcome hend
  rw [hrun] at hend
  have hnext : m₂.next? = none := Watch.next?_drain _
  obtain ⟨hd, hu⟩ := Watch.next?_eq_none_iff.mp hnext
  refine ⟨houtcome, ?_, ?_, fun hspares => mt hstuck.mp (hhale.unstuck hspares)⟩
  · rw [hend.pending, hd, hu]
    rfl
  · rw [hend.status, hend.fallback, hstuck, hsettles]
    exact Watch.shown_in_the_end hhale.opened s hafter

end Sessions
end Hale

/-- The showing of a report is interrupted while the clock is moved, and an assumption that was made
after that is confirmed. -/
theorem Session.recovers_unless_stuck_report_interrupted :
    let host : Host ℤ Unit := fun memory call => match call with
      | .shown ⟨.connected, _⟩ => (memory, { ending := some (.interrupt "") })
      | _ => (memory, {})
    let before : List (Op ℤ) := [.notify (.ready (.bare .connected)), .advance 150,
      .expect (.text "disconnecting"), .advance 50]
    let s : Status := .bare .disconnected
    let w := Session.after host 5 before (Session.start ⟨150, 3000⟩ 0 { memory := () })
    let idle := (Op.idle 10000).run (outside Replay.silent 5) 5
      (Session.after Replay.silent 5 [.notify (.ready s), .advance 100] w)
    host.CallsNothing ∧ (Replay.silent : Host ℤ Unit).LooksOn ∧
      (∀ op ∈ before, op.onView ∧ op.closes = false) ∧
      idle.1 = .ok .nothing ∧ idle.2.rest.view.status = s ∧ idle.2.rest.view.fallback = none := by
  intro host before s w idle
  have hhost : host.CallsNothing := fun memory call => by
    simp only [host]
    split <;> rfl
  have hspares : ∀ a : Assumption, host.Spares a.status := fun a memory stop h => by
    cases a <;> contradiction
  have hbefore : ∀ op ∈ before, op.onView ∧ op.closes = false := by
    simp [before, Op.onView, Op.closes]
  have hafter : ∀ op ∈ [Op.advance (100 : ℤ)], op.movesClock := by simp [Op.movesClock]
  obtain ⟨hok, -, hrecovers, hunstuck⟩ := Session.recovers_unless_stuck (d := ⟨150, 3000⟩) hhost
    Replay.silent_looksOn (by decide) (by decide) (show 4 ≤ 5 by decide)
    (Client.undisturbed_alone ()) 0 hbefore (show (Report.ready s).read = .ok s from rfl) hafter
    (show (4 : ℤ) ≤ 10000 by decide)
  have hshown := hrecovers.mpr fun hstuck => absurd hstuck (hunstuck hspares)
  -- the two sides find the order of the integers in different places
  refine ⟨hhost, Replay.silent_looksOn, hbefore, ?_, ?_⟩
  · with_reducible_and_instances exact hok
  · with_reducible_and_instances exact hshown

/-- The showing of an assumption is interrupted, so nobody gives it up, and a report that does not
settle it is never shown. -/
theorem Session.barred_by_assumption :
    let host : Host ℤ Unit := fun memory call => match call with
      | .shown ⟨.connecting, _⟩ => (memory, { ending := some (.interrupt "") })
      | _ => (memory, {})
    let w := Session.after host 5 [.expect (.text "connecting"), .advance 200]
      (Session.start ⟨150, 3000⟩ 0 { memory := () })
    let idle := (Op.idle 10000).run (outside Replay.silent 5) 5
      (Session.after Replay.silent 5 [.notify (.ready (.bare .connected))] w)
    host.CallsNothing ∧ idle.1 = .ok .nothing ∧ idle.2.clock.pending = 0 ∧
      idle.2.rest.view.closed = false ∧ idle.2.rest.view.status = .bare .connecting ∧
      idle.2.rest.view.fallback = some (.bare .connected) := by
  refine ⟨fun memory call => ?_, rfl, rfl, rfl, rfl, rfl⟩
  dsimp only
  split <;> rfl

end TunnelView
