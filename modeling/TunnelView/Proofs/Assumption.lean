import TunnelView.Proofs.Watch.Course

/-!
# What becomes of an assumption

An assumption lasts until its call fires or a report that passes the quiet window settles it. While
it lasts nothing is shown, and what will be shown in the end is the newest report that passed since
it was made, or else what it replaced. Its call fires at the very end of the patience, if at all,
and once it is over the call never fires again.

Key definitions: `Assumption.settledBy`, `Move.assumes`, `World.Awaits`, `Course.Lasts`,
`Course.Fate`.
Key theorems: `World.Awaits.step`, `World.Awaits.fires`, `World.Awaits.settled`,
`Session.assumption_fate`, `Session.exists_fates`.
-/

namespace TunnelView

variable {τ ο σ : Type}

/-- Whether a report settles an assumption: the tunnel is in the phase that is assumed, or the
service has given up. -/
def Assumption.settledBy (a : Assumption) (s : Status) : Bool :=
  s.phase == a.status.phase || s.isError

section Awaits

variable [LinearOrder τ]

/-- An assumption is on show with something kept behind it, and the call that gives it up is on the
clock. -/
structure World.Awaits (a : Assumption) (kept : Status) (serial : ℕ) (time : τ)
    (w : World τ ο) : Prop where
  status : w.rest.view.status = a.status
  fallback : w.rest.view.fallback = some kept
  armed : w.rest.view.timeout.armed = some serial
  timer : (⟨time, serial, .giveUp⟩ : Timer τ Alarm) ∈ w.clock.timers
  early : w.clock.now ≤ time

namespace World.Awaits

variable {fine : ο → Prop} {d : Delays τ} {w : World τ ο} {m : Watch τ} {a : Assumption}
  {kept : Status} {serial : ℕ} {time : τ}

theorem fallback_eq (h : w.Awaits a kept serial time) (hmw : Matches fine d w m) :
    m.fallback = some kept :=
  hmw.fallback.symm.trans h.fallback

theorem deadline_eq (h : w.Awaits a kept serial time) (hmw : Matches fine d w m) :
    m.deadline = some time :=
  hmw.deadline_of_mem h.timer rfl

theorem settles_eq (h : w.Awaits a kept serial time) (hmw : Matches fine d w m) (s : Status) :
    m.settles s = a.settledBy s := by
  rw [Watch.settles, Assumption.settledBy, ← hmw.status, h.status]

/-- The clock does not get to the deadline while the call is still to come. -/
theorem wait_lt (h : w.Awaits a kept serial time) (hmw : Matches fine d w m) {t : τ}
    (hposs : (Move.wait t).Possible w) : t < time :=
  Watch.lt_deadline_of_due?_eq_none ((hmw.possible_iff (.wait t)).mp hposs) (h.deadline_eq hmw)

end World.Awaits
end Awaits

section Fate

variable [AddCommGroup τ] [LinearOrder τ]

/-- The assumption that a move makes, and what is shown again if nothing settles it: the user
expects something in place of what is on show, or a report says that the service reconnects when no
fallback is kept or after it has settled an assumption. -/
def Move.assumes (w : World τ ο) : Move τ → Option (Assumption × Status)
  | .assume a => if w.rest.view.closed then none else some (a, w.rest.view.status)
  | move => (move.passes w).bind fun s =>
    if s.isReconnecting && (w.rest.view.fallback.isNone || w.rest.view.settles s) then
      some (.connecting, s)
    else none

/-- A course leaves an assumption as it is: no move makes or drops an assumption,
no report that passes settles it, and its call does not fire. -/
structure Course.Lasts (out : Outside τ ο) (a : Assumption) (serial : ℕ) (moves : List (Move τ))
    (w : World τ ο) : Prop where
  possible : Course.Possible out moves w
  left : ∀ move ∈ moves, move.intervenes = false
  unsettled : ∀ s ∈ Course.passed out moves w, a.settledBy s = false
  unfired : ∀ t ∈ Course.fired out moves w, t.serial ≠ serial

/-! ### What a report does to the end of an assumption -/

section Receive

variable {out : Outside τ ο} {w : World τ ο} {s : Status} {serial : ℕ}

theorem View.receive_of_admits (h : w.rest.view.admits w.clock.now) :
    View.receive out s w = View.act out s { w with rest.view.lastActed := w.clock.now } := by
  obtain ⟨hc, hs⟩ : w.rest.view.closed = false ∧ w.rest.view.tooSoon w.clock.now = false := by
    simpa [View.admits] using h
  rw [View.receive, View.current_bind, hc, if_neg (by simp), Timed.now_bind, hs, if_neg (by simp)]
  rfl

/-- A report that settles nothing is kept as the fallback. -/
theorem View.receive_of_unsettled (h : w.rest.view.admits w.clock.now)
    (hf : w.rest.view.fallback.isSome) (hs : w.rest.view.settles s = false) :
    View.receive out s w = (.ok (), { w.record (.log (.stored s)) with
      rest.view := { w.rest.view with lastActed := w.clock.now, fallback := some s } }) := by
  obtain ⟨kept, hk⟩ := Option.isSome_iff_exists.mp hf
  rw [View.settles] at hs
  rw [View.receive_of_admits h, View.act, View.current_bind]
  simp only [View.settles, hk, hs]
  rfl

/-- A report that settles an assumption is shown once the assumption is dropped. -/
theorem View.receive_of_settled (h : w.rest.view.admits w.clock.now)
    (hf : w.rest.view.fallback.isSome) (hs : w.rest.view.settles s) :
    View.receive out s w = View.reveal out s (View.resetFallback
      { w.record (.log (.confirmed s)) with rest.view.lastActed := w.clock.now }).2 := by
  obtain ⟨kept, hk⟩ := Option.isSome_iff_exists.mp hf
  rw [View.settles] at hs
  rw [View.receive_of_admits h, View.act, View.current_bind]
  simp only [View.settles, hk, hs]
  rfl

/-- A report that is put off or kept as the fallback leaves the timeout alone. -/
theorem View.receive_timeout (h : w.rest.view.admits w.clock.now →
      w.rest.view.fallback.isSome ∧ w.rest.view.settles s = false) :
    (View.receive out s w).2.rest.view.timeout = w.rest.view.timeout := by
  by_cases ha : w.rest.view.admits w.clock.now
  · obtain ⟨hf, hs⟩ := h ha
    rw [View.receive_of_unsettled ha hf hs]
  · rw [View.receive, View.current_bind]
    split
    · rfl
    · rw [Timed.now_bind, if_pos (by simp_all [View.admits])]
      rfl

/-- A report that settles an assumption lets go of its call for good. -/
theorem View.receive_gone {fine : ο → Prop} (hout : out.LooksOn fine) (ho : fine w.rest.owner)
    (h : w.rest.view.admits w.clock.now) (hf : w.rest.view.fallback.isSome)
    (hs : w.rest.view.settles s) (ha : w.rest.view.timeout.armed = some serial)
    (hlt : serial < w.clock.next) : (View.receive out s w).2.clock.Gone serial := by
  rw [View.receive_of_settled h hf hs]
  let confirmed := w.record (.log (.confirmed s))
  let acted : World τ ο := { confirmed with rest.view.lastActed := w.clock.now }
  have hopen : (View.resetFallback acted).2.rest.view.closed = false :=
    (Bool.not_eq_true' w.rest.view.closed).mp (Bool.and_eq_true_iff.mp h).1
  have hgone : (View.resetFallback acted).2.clock.Gone serial := by
    simp only [View.resetFallback, Act.bind_apply, View.cancelTimeout, Act.change, acted, confirmed,
      World.record, View.change, Slot.cancel, ha]
    exact ⟨hlt, fun t ht => by simpa using (List.mem_filter.mp ht).2⟩
  exact ((World.Path.reveal s hopen).later hout ho).2.gone hgone

end Receive

/-! ### The same for a watch -/

namespace Watch

variable {d : Delays τ} {m : Watch τ} {a : Assumption} {s kept : Status} {t u : τ} {move : Move τ}

/-- The assumption that a move makes. -/
def assumes (d : Delays τ) (m : Watch τ) : Move τ → Option (Assumption × Status)
  | .assume a => if m.closed then none else some (a, m.status)
  | move => (m.passes d move).bind fun s =>
    if s.isReconnecting && (m.fallback.isNone || m.settles s) then some (.connecting, s) else none

omit [LinearOrder τ] in
/-- A report that settles nothing is kept as the fallback. -/
theorem pass_of_unsettled (hf : m.fallback = some kept) (hs : m.settles s = false) : m.pass d s =
    { m with deferred := none, lastActed := m.now, fallback := some s } := by
  rw [Watch.settles] at hs
  simp [Watch.pass, Watch.act, Watch.settles, hf, hs]

omit [LinearOrder τ] in
/-- A report that settles an assumption ends it, and may make another. -/
theorem pass_of_settled (hf : m.fallback = some kept) (hs : m.settles s) :
    m.pass d s = Watch.reveal d s { m.drop with deferred := none, lastActed := m.now } := by
  rw [Watch.settles] at hs
  simp only [Watch.pass, Watch.act, Watch.settles, hf, hs]
  rfl

omit [LinearOrder τ] in
/-- A reconnect is shown as an assumption if no other is in its way. -/
theorem pass_of_reconnecting (hc : m.closed = false) (hr : s.isReconnecting)
    (hf : m.fallback.isNone || m.settles s) :
    (m.pass d s).status = Assumption.connecting.status ∧ (m.pass d s).fallback = some s ∧
      (m.pass d s).deadline = some (m.now + d.patience) ∧ (m.pass d s).now = m.now := by
  have hassume : ∀ m' : Watch τ, m'.closed = false → m'.now = m.now →
      (m'.reveal d s).status = Assumption.connecting.status ∧ (m'.reveal d s).fallback = some s ∧
        (m'.reveal d s).deadline = some (m.now + d.patience) ∧ (m'.reveal d s).now = m.now :=
    fun m' h1 h2 => by simp [Watch.reveal, Watch.assume, Watch.commit, hr, h1, h2]
  cases hk : m.fallback with
  | none =>
    rw [Watch.pass, Watch.act, hk]
    exact hassume _ hc rfl
  | some kept =>
    rw [pass_of_settled hk (by simpa [hk] using hf)]
    exact hassume _ hc rfl

/-- An assumption that is made is on show, and timed. -/
theorem meet_of_assumes (hm : m.Sound d) (h : m.assumes d move = some (a, kept)) :
    (m.meet d move).status = a.status ∧ (m.meet d move).fallback = some kept ∧
      (m.meet d move).deadline = some ((m.meet d move).now + d.patience) := by
  by_cases hmove : ∃ a', move = .assume a'
  · obtain ⟨a', rfl⟩ := hmove
    simp only [Watch.assumes] at h
    split at h
    · contradiction
    · rename_i hc
      obtain ⟨rfl, rfl⟩ := Prod.mk.inj (Option.some.inj h)
      simp [Watch.meet, Watch.assume, Watch.commit, hc]
  · have h : ((m.passes d move).bind fun s =>
        if s.isReconnecting && (m.fallback.isNone || m.settles s) then some (.connecting, s)
        else none) = some (a, kept) := by
      cases move with
      | assume a' => exact absurd ⟨a', rfl⟩ hmove
      | _ => exact h
    obtain ⟨s, hs, hif⟩ := Option.bind_eq_some_iff.mp h
    split at hif
    · rename_i hr
      obtain ⟨rfl, rfl⟩ := Prod.mk.inj (Option.some.inj hif)
      obtain ⟨hr, hf⟩ := Bool.and_eq_true_iff.mp hr
      obtain ⟨t, he⟩ := meet_of_passes hs
      obtain ⟨h1, h2, h3, h4⟩ :=
        pass_of_reconnecting (d := d) (m := m.wait t) (hm.open_of_passes hs) hr hf
      rw [he]
      exact ⟨h1, h2, by rw [h3, h4]⟩
    · contradiction

/-- An assumption that nothing settles, and that is not given up, lasts as it is; only what is kept
behind it changes. -/
theorem meet_of_unsettled (hf : m.fallback = some kept) (hl : move.intervenes = false)
    (hs : ∀ s, m.passes d move = some s → m.settles s = false)
    (hg : move = .ring → ∀ t, m.next? ≠ some (t, .giveUp)) :
    (m.meet d move).status = m.status ∧
      (m.meet d move).fallback = some ((m.passes d move).getD kept) ∧
      (m.meet d move).deadline = m.deadline ∧ (m.meet d move).shown = m.shown := by
  cases hpass : m.passes d move with
  | some s =>
    obtain ⟨t, he⟩ := meet_of_passes hpass
    rw [he, pass_of_unsettled (m := m.wait t) hf (hs s hpass)]
    exact ⟨rfl, rfl, rfl, rfl⟩
  | none =>
    obtain ⟨hring, t, hn⟩ | ⟨e1, e2, e3, e4⟩ := meet_of_not_passes hl hpass
    · exact absurd hn (hg hring t)
    · exact ⟨e1, e2.trans hf, e3, e4⟩

/-- After a report that settles an assumption nothing is assumed, unless the report makes another
assumption. -/
theorem meet_of_settled (hf : m.fallback = some kept)
    (hs : m.passes d move = some s) (hset : m.settles s) (ha : m.assumes d move = none) :
    (m.meet d move).fallback = none ∧ (m.meet d move).deadline = none := by
  obtain ⟨t, he⟩ := meet_of_passes hs
  have hr : s.isReconnecting = false := by
    cases move with
    | assume a => simp [Watch.passes] at hs
    | _ => simpa [Watch.assumes, hs, hset] using ha
  rw [he, pass_of_settled (m := m.wait t) hf hset, Watch.reveal, hr]
  exact ⟨rfl, rfl⟩

end Watch

/-! ### The same for a view -/

variable {fine : ο → Prop} {d : Delays τ} {w : World τ ο} {m : Watch τ} {out : Outside τ ο}
  {a : Assumption} {kept s : Status} {serial : ℕ} {time : τ} {move : Move τ}

namespace Matches

theorem assumes_eq [IsOrderedAddMonoid τ] (h : Matches fine d w m) (hm : m.Sound d)
    (move : Move τ) : move.assumes w = m.assumes d move := by
  have hpass := h.passes_eq hm move
  have hs : ∀ s, w.rest.view.settles s = m.settles s := fun s => by
    rw [View.settles, Watch.settles, h.status]
  cases move with
  | assume a => simp only [Move.assumes, Watch.assumes, h.closed, h.status]
  | _ => simp only [Move.assumes, Watch.assumes, hpass, h.fallback, hs]

variable [IsOrderedAddMonoid τ]

/-- The timeout slot stays as it is while no report settles the assumption, no assumption is made or
dropped, and the call in the slot does not fire. -/
theorem timeout_run (h : Matches fine d w m) (hm : m.Sound d) (hf : m.fallback = some kept)
    (hl : move.intervenes = false) (hs : ∀ s, move.passes w = some s → m.settles s = false)
    (hg : move = .ring → ∀ t, m.next? ≠ some (t, .giveUp)) :
    (move.run out w).2.rest.view.timeout = w.rest.view.timeout := by
  cases hpass : move.passes w with
  | some s =>
    obtain ⟨w₁, hb, ha⟩ := Move.brings_of_passes hpass
    obtain ⟨-, slot, hrest⟩ := Move.brings_frame hb
    rw [Move.run_of_brings hb, View.receive_timeout, hrest]
    intro _
    rw [View.settles, hrest, h.fallback, hf, h.status]
    exact ⟨rfl, hs s hpass⟩
  | none =>
    cases move with
    | report s =>
      refine View.receive_timeout fun ha => ?_
      simp [Move.passes, Move.brings, ha] at hpass
    | assume a => contradiction
    | reset => contradiction
    | ring =>
      rw [h.passes_eq hm, Watch.passes] at hpass
      rcases hn : m.next? with _ | ⟨t, s | _⟩
      · have hnone : m.due? none = none := by rwa [Watch.due?_none_eq_next?]
        rw [Move.run, Act.bind_apply, h.popDue_none hnone]
        rfl
      · simp [hn] at hpass
      · exact absurd hn (hg rfl t)
    | wait time => rfl

end Matches

namespace World.Awaits

variable [IsOrderedAddMonoid τ]

/-- An assumption that is made is on show, and its call is due at the end of the patience. -/
theorem of_assumes (h : Matches fine d w m) (hm : m.Sound d) (hout : out.LooksOn fine)
    (hw : 0 < d.window) (hp : 0 < d.patience) (hposs : move.Possible w)
    (ha : move.assumes w = some (a, kept)) : ∃ serial, (move.run out w).2.Awaits a kept serial
      ((move.run out w).2.clock.now + d.patience) := by
  obtain ⟨-, h₁⟩ := h.meet hm hout hw hp hposs
  rw [h.assumes_eq hm] at ha
  obtain ⟨hs, hf, hu⟩ := Watch.meet_of_assumes hm ha
  obtain ⟨i, j, -, hj, ht, -⟩ := h₁.calls
  refine ⟨j, h₁.status.trans hs, h₁.fallback.trans hf, by rw [hj, hu]; rfl, ?_, ?_⟩
  · rw [ht, h₁.now]
    exact mem_calls.mpr (.inr ⟨_, hu, rfl⟩)
  · exact le_add_of_nonneg_right hp.le

/-- **One move of an assumption that lasts.** Nothing is shown, the call stays where it is, and a
report that passes is kept. -/
theorem step (h : w.Awaits a kept serial time) (hmw : Matches fine d w m) (hm : m.Sound d)
    (hout : out.LooksOn fine) (hw : 0 < d.window) (hp : 0 < d.patience)
    (hposs : move.Possible w) (hl : move.intervenes = false)
    (hs : ∀ s, move.passes w = some s → a.settledBy s = false)
    (hf : ∀ t, move.fires w = some t → t.serial ≠ serial) :
    (move.run out w).2.Awaits a ((move.passes w).getD kept) serial time ∧
      Replay.commits (move.run out w).2.rest.events = Replay.commits w.rest.events := by
  have hfb := h.fallback_eq hmw
  have hs : ∀ s, move.passes w = some s → m.settles s = false := fun s hpass => by
    rw [h.settles_eq hmw, hs s hpass]
  have hg : move = .ring → ∀ t, m.next? ≠ some (t, .giveUp) := by
    rintro rfl t hn
    obtain ⟨call, hcall, -, ha⟩ := hmw.fires_giveUp hn
    rw [h.armed] at ha
    exact hf call hcall (Option.some.inj ha).symm
  obtain ⟨-, h₁⟩ := hmw.meet hm hout hw hp hposs
  have hm₁ := hm.meet hw hp ((hmw.possible_iff move).mp hposs)
  have htimeout : (move.run out w).2.rest.view.timeout = w.rest.view.timeout :=
    hmw.timeout_run hm hfb hl hs hg
  rw [hmw.passes_eq hm] at hs ⊢
  obtain ⟨e1, e2, e3, e4⟩ := Watch.meet_of_unsettled hfb hl hs hg
  have hu : (m.meet d move).deadline = some time := e3.trans (h.deadline_eq hmw)
  have harmed : (move.run out w).2.rest.view.timeout.armed = some serial := by
    rw [htimeout, h.armed]
  obtain ⟨i, j, -, hj, ht, -⟩ := h₁.calls
  obtain rfl : j = serial := by
    rw [harmed, hu] at hj
    exact (Option.some.inj hj).symm
  refine ⟨⟨?_, h₁.fallback.trans e2, harmed, ?_, ?_⟩, ?_⟩
  · rw [h₁.status, e1, ← hmw.status, h.status]
  · rw [ht]
    exact mem_calls.mpr (.inr ⟨time, hu, rfl⟩)
  · rw [h₁.now]
    exact (hm₁.deadline time hu).1
  · rw [h₁.shown, e4, hmw.shown]

/-- When the call of an assumption fires, it is just the deadline, and what was kept is shown. -/
theorem fires (h : w.Awaits a kept serial time) (hmw : Matches fine d w m) (hm : m.Sound d)
    (hout : out.LooksOn fine) (hw : 0 < d.window) (hp : 0 < d.patience) (hposs : move.Possible w)
    {t : Timer τ Alarm} (hf : move.fires w = some t) (ht : t.serial = serial) :
    (move.run out w).2.clock.now = time ∧
      Replay.commits (move.run out w).2.rest.events =
        (time, kept) :: Replay.commits w.rest.events ∧
      (move.run out w).2.rest.view.fallback = none ∧
      (move.run out w).2.rest.view.timing = false ∧
      (move.run out w).2.clock.Gone serial := by
  obtain ⟨rfl, hn⟩ := hmw.next?_of_fires hf (by rw [h.armed, ht])
  have hu := h.deadline_eq hmw
  obtain rfl : t.deadline = time := Option.some.inj ((Watch.deadline_of_next? hn).symm.trans hu)
  obtain ⟨e1, e2, e3, e4, e5⟩ := Watch.meet_of_giveUp (d := d) (h.fallback_eq hmw) hn
  obtain ⟨-, h₁⟩ := hmw.meet hm hout hw hp hposs
  rw [max_eq_right (hm.deadline _ hu).1] at e1 e5
  refine ⟨h₁.now.trans e1, by rw [h₁.shown, e5, hmw.shown], h₁.fallback.trans e3, ?_, ?_⟩
  · rw [h₁.timing, e4]
    rfl
  · obtain ⟨-, hlater⟩ := Ages.move hout .ring w hmw.owner
    refine ⟨(hmw.fresh _ h.timer).trans_le hlater.next, fun x hx hserial => ?_⟩
    -- what is left on the clock gives nothing up, so under this number it would have to be new
    rcases hlater.timers x hx with hold | hnew
    · have hc := hmw.call_of_serial hold (by rw [h.armed, hserial])
      rw [h₁.deadline_of_mem hx hc] at e4
      contradiction
    · exact absurd (hmw.fresh _ h.timer) (not_lt.mpr (hserial ▸ hnew))

/-- A report that settles an assumption lets go of its call, and only an assumption that the report
makes itself is on show then. -/
theorem settled (h : w.Awaits a kept serial time) (hmw : Matches fine d w m) (hm : m.Sound d)
    (hout : out.LooksOn fine) (hw : 0 < d.window) (hp : 0 < d.patience) (hposs : move.Possible w)
    (hpass : move.passes w = some s) (hs : a.settledBy s) :
    (move.run out w).2.rest.view.fallback = (move.assumes w).map Prod.snd ∧
      (move.run out w).2.rest.view.timing = (move.assumes w).isSome ∧
      (move.run out w).2.clock.Gone serial := by
  have hset : m.settles s := by rw [h.settles_eq hmw, hs]
  obtain ⟨-, h₁⟩ := hmw.meet hm hout hw hp hposs
  rw [h₁.fallback, h₁.timing, hmw.assumes_eq hm, ← and_assoc]
  constructor
  · cases ha : m.assumes d move with
    | none =>
      rw [hmw.passes_eq hm] at hpass
      obtain ⟨e1, e2⟩ := Watch.meet_of_settled (h.fallback_eq hmw) hpass hset ha
      rw [e1, e2]
      exact ⟨rfl, rfl⟩
    | some made =>
      obtain ⟨-, e1, e2⟩ := Watch.meet_of_assumes hm ha
      rw [e1, e2]
      exact ⟨rfl, rfl⟩
  · obtain ⟨w₁, hb, ha⟩ := Move.brings_of_passes hpass
    obtain ⟨hnext, slot, hrest⟩ := Move.brings_frame hb
    rw [Move.run_of_brings hb]
    refine View.receive_gone hout (by rw [hrest]; exact hmw.owner) ha ?_ ?_ ?_ ?_
    · rw [hrest, h.fallback]
      rfl
    · rw [View.settles, hrest, h.status]
      exact hs
    · rw [hrest]
      exact h.armed
    · rw [hnext]
      exact hmw.fresh _ h.timer

/-- **A course of an assumption that lasts.** Nothing is shown, and the newest report that passed is
kept. -/
theorem run (h : w.Awaits a kept serial time) (hmw : Matches fine d w m) (hm : m.Sound d)
    (hout : out.LooksOn fine) (hw : 0 < d.window) (hp : 0 < d.patience) {moves : List (Move τ)}
    (hl : Course.Lasts out a serial moves w) :
    (Course.run out moves w).Awaits a ((Course.passed out moves w).getLastD kept) serial time ∧
      Replay.commits (Course.run out moves w).rest.events = Replay.commits w.rest.events := by
  induction moves generalizing w m kept with
  | nil => exact ⟨h, rfl⟩
  | cons move moves ih =>
    obtain ⟨hposs, hleft, hunsettled, hunfired⟩ := hl
    simp only [Course.passed, List.mem_append, Option.mem_toList] at hunsettled
    simp only [Course.fired, List.mem_append, Option.mem_toList] at hunfired
    obtain ⟨h₁, hc₁⟩ := h.step hmw hm hout hw hp hposs.1 (hleft move (by simp))
      (fun s hs => hunsettled s (.inl hs)) fun t ht => hunfired t (.inl ht)
    have hmw₁ := (hmw.meet hm hout hw hp hposs.1).2
    have hm₁ := hm.meet hw hp ((hmw.possible_iff move).mp hposs.1)
    obtain ⟨h₂, hc₂⟩ := ih h₁ hmw₁ hm₁ ⟨hposs.2, fun next hn => hleft next (by simp [hn]),
      fun s hs => hunsettled s (.inr hs), fun t ht => hunfired t (.inr ht)⟩
    refine ⟨?_, hc₂.trans hc₁⟩
    have hlast : (Course.passed out (move :: moves) w).getLastD kept =
        (Course.passed out moves (move.run out w).2).getLastD ((move.passes w).getD kept) := by
      rw [Course.passed]
      cases move.passes w with
      | none => rfl
      | some s => exact List.getLastD_cons ..
    rw [hlast]
    exact h₂

end World.Awaits

/-- What becomes of an assumption that is on show, with something kept behind it, if its call is due
at a deadline. -/
def Course.Fate (out : Outside τ ο) (a : Assumption) (kept : Status) (serial : ℕ) (deadline : τ)
    (w : World τ ο) : Prop :=
  ∀ moves, Course.Lasts out a serial moves w →
    let newest := (Course.passed out moves w).getLastD kept
    let w₁ := Course.run out moves w
    w₁.Awaits a newest serial deadline ∧
    Replay.commits w₁.rest.events = Replay.commits w.rest.events ∧
    (∀ t, (Move.wait t).Possible w₁ → t < deadline) ∧
    ∀ next : Move τ, next.Possible w₁ →
      let w₂ := (next.run out w₁).2
      (∀ t, next.fires w₁ = some t → t.serial = serial →
        w₂.clock.now = deadline ∧
        Replay.commits w₂.rest.events = (deadline, newest) :: Replay.commits w.rest.events ∧
        w₂.rest.view.fallback = none ∧ w₂.rest.view.timing = false ∧
        ∀ later, ∀ t ∈ Course.fired out later w₂, t.serial ≠ serial) ∧
      (∀ s, next.passes w₁ = some s → a.settledBy s →
        w₂.rest.view.fallback = (next.assumes w₁).map Prod.snd ∧
        w₂.rest.view.timing = (next.assumes w₁).isSome ∧
        ∀ later, ∀ t ∈ Course.fired out later w₂, t.serial ≠ serial)

theorem World.Awaits.fate [IsOrderedAddMonoid τ] (h : w.Awaits a kept serial time)
    (hmw : Matches fine d w m) (hm : m.Sound d) (hout : out.LooksOn fine) (hw : 0 < d.window)
    (hp : 0 < d.patience) :
    Course.Fate out a kept serial time w := by
  intro moves hl newest w₁
  obtain ⟨h₁, hcommits⟩ := h.run hmw hm hout hw hp hl
  obtain ⟨hmw₁, hm₁⟩ := hmw.course hm hout hw hp hl.possible
  refine ⟨h₁, hcommits, fun t ht => h₁.wait_lt hmw₁ ht, fun next hnext => ?_⟩
  intro w₂
  have howner := (Ages.move hout next w₁ hmw₁.owner).1
  constructor
  · intro t hfires ht
    obtain ⟨h2, h3, h4, h5, hgone⟩ := h₁.fires hmw₁ hm₁ hout hw hp hnext hfires ht
    exact ⟨h2, by rw [h3, hcommits], h4, h5, fun later => Course.ne_of_gone hout howner hgone⟩
  · intro s hpass hs
    obtain ⟨h2, h3, hgone⟩ := h₁.settled hmw₁ hm₁ hout hw hp hnext hpass hs
    exact ⟨h2, h3, fun later => Course.ne_of_gone hout howner hgone⟩

/-- The fate of an assumption that a course makes with its last move. -/
theorem Matches.exists_fate [IsOrderedAddMonoid τ] {now : τ} {before : List (Move τ)}
    (h : Matches fine d w (Watch.start now)) (hout : out.LooksOn fine) (hw : 0 < d.window)
    (hp : 0 < d.patience) (hposs : Course.Possible out (before ++ [move]) w)
    (ha : move.assumes (Course.run out before w) = some (a, kept)) :
    let w₁ := Course.run out (before ++ [move]) w
    ∃ serial, Course.Fate out a kept serial (w₁.clock.now + d.patience) w₁ := by
  obtain ⟨hbefore, hmove, -⟩ := Course.possible_append.mp hposs
  obtain ⟨h₀, hm₀⟩ := h.course (.start now) hout hw hp hbefore
  obtain ⟨hmw, hm⟩ := h.course (.start now) hout hw hp hposs
  obtain ⟨serial, hawaits⟩ := World.Awaits.of_assumes h₀ hm₀ hout hw hp hmove ha
  have hrun : Course.run out (before ++ [move]) w = (move.run out (Course.run out before w)).2 :=
    Course.run_append
  rw [← hrun] at hawaits
  exact ⟨serial, hawaits.fate hmw hm hout hw hp⟩

/-- **What becomes of an assumption.** After any course, let a move make an assumption. As long as
no report that passes the quiet window settles it and its call does not fire, nothing is shown, and
the clock does not get to the end of the patience. If its call fires, it is just then, and shows the
newest report that passed since or, without one, what the assumption replaced. If a report settles
it, the fallback and the timeout are empty, unless the report makes an assumption itself. After
either the call never fires again. (What a session does is such a course: `Session.exists_course`.)
-/
theorem Session.assumption_fate [IsOrderedAddMonoid τ] {host : Host τ σ} (hhost : host.LooksOn)
    (hw : 0 < d.window) (hp : 0 < d.patience) {fuel : ℕ} (hf : 0 < fuel) {client : Client σ}
    (hc : client.Undisturbed) (now : τ) {before : List (Move τ)}
    (hposs : Course.Possible (outside host fuel) (before ++ [move]) (Session.start d now client))
    (ha : move.assumes (Course.run (outside host fuel) before (Session.start d now client)) =
      some (a, kept)) :
    let out := outside host fuel
    let w := Course.run out (before ++ [move]) (Session.start d now client)
    let deadline := w.clock.now + d.patience
    ∃ serial, ∀ moves, Course.Lasts out a serial moves w →
      let newest := (Course.passed out moves w).getLastD kept
      let w₁ := Course.run out moves w
      w₁.Awaits a newest serial deadline ∧
      Replay.commits w₁.rest.events = Replay.commits w.rest.events ∧
      (∀ t, (Move.wait t).Possible w₁ → t < deadline) ∧
      ∀ next : Move τ, next.Possible w₁ →
        let w₂ := (next.run out w₁).2
        (∀ t, next.fires w₁ = some t → t.serial = serial →
          w₂.clock.now = deadline ∧
          Replay.commits w₂.rest.events = (deadline, newest) :: Replay.commits w.rest.events ∧
          w₂.rest.view.fallback = none ∧ w₂.rest.view.timing = false ∧
          ∀ later, ∀ t ∈ Course.fired out later w₂, t.serial ≠ serial) ∧
        (∀ s, next.passes w₁ = some s → a.settledBy s →
          w₂.rest.view.fallback = (next.assumes w₁).map Prod.snd ∧
          w₂.rest.view.timing = (next.assumes w₁).isSome ∧
          ∀ later, ∀ t ∈ Course.fired out later w₂, t.serial ≠ serial) := by
  intro out w deadline
  obtain ⟨n, rfl⟩ : ∃ n, fuel = n + 1 := ⟨fuel - 1, by omega⟩
  have hout : out.LooksOn Client.Undisturbed := outside_looksOn hhost n
  exact (Matches.start client hc now).exists_fate hout hw hp hposs ha

/-- **What becomes of the assumptions of a session.** Operations that do not close the view do to it
what a course does, and every assumption that a move of it makes has its fate in what follows. -/
theorem Session.exists_fates [IsOrderedAddMonoid τ] {host : Host τ σ} (hhost : host.LooksOn)
    (hw : 0 < d.window) (hp : 0 < d.patience) {fuel : ℕ} (hf : 4 ≤ fuel) {client : Client σ}
    (hc : client.Undisturbed) (now : τ) {ops : List (Op τ)}
    (hops : ∀ op ∈ ops, op.onView ∧ op.closes = false) :
    let out := outside host fuel
    let w := Session.start d now client
    ∃ course, course.filter Move.isAsked = ops.flatMap Op.asks ∧ Course.Possible out course w ∧
      Session.after host fuel ops w = Course.run out course w ∧
      ∀ before move after, course = before ++ move :: after →
        ∀ a kept, move.assumes (Course.run out before w) = some (a, kept) →
          let w₁ := Course.run out (before ++ [move]) w
          ∃ serial, Course.Fate out a kept serial (w₁.clock.now + d.patience) w₁ := by
  intro out w
  obtain ⟨course, hasks, hposs, hafter⟩ := Session.exists_course hhost hw hp hf hc now hops
  refine ⟨course, hasks, hposs, hafter, fun before move after hcourse a kept ha => ?_⟩
  obtain ⟨n, rfl⟩ : ∃ n, fuel = n + 1 := ⟨fuel - 1, by omega⟩
  have hout : out.LooksOn Client.Undisturbed := outside_looksOn hhost n
  have hbefore : Course.Possible out (before ++ [move]) w := by
    rw [hcourse, List.append_cons] at hposs
    exact (Course.possible_append.mp hposs).1
  exact (Matches.start client hc now).exists_fate hout hw hp hbefore ha

end Fate

/-- A reconnect that is reported at 200 is assumed until 3200, with the report of 400 kept behind it.
Then its call fires, and that report is shown; or a report settles the assumption before. -/
theorem Session.assumption_fate_reconnect :
    let out := outside (τ := ℤ) Replay.silent 1
    let w := Course.run out ([.wait 200] ++ [.report (.bare (.disconnecting .reconnect))])
      (Session.start ⟨150, 3000⟩ 0 { memory := () })
    let w₁ := Course.run out [.wait 400, .report (.bare .disconnected), .wait 600] w
    (∃ serial, w₁.Awaits .connecting (.bare .disconnected) serial 3200) ∧
      (Move.ring.run out w₁).2.clock.now = 3200 ∧
      Replay.commits (Move.ring.run out w₁).2.rest.events =
        [(3200, .bare .disconnected), (200, .bare .connecting)] ∧
      ((Move.report (.bare .connecting)).run out w₁).2.rest.view.fallback = none ∧
      ((Move.report (.bare .connecting)).run out w₁).2.rest.view.timing = false := by
  intro out w w₁
  have hposs : Course.Possible out ([.wait 200] ++ [.report (.bare (.disconnecting .reconnect))])
      (Session.start ⟨150, 3000⟩ 0 { memory := () }) := ⟨rfl, trivial, trivial⟩
  obtain ⟨serial, h⟩ := Session.assumption_fate Replay.silent_looksOn (by decide) (by decide)
    (by decide) (Client.undisturbed_alone ()) 0 hposs rfl
  have hpassed : Course.passed out [.wait 400, .report (.bare .disconnected), .wait 600] w =
      [.bare .disconnected] := rfl
  have hnone : Course.fired out [.wait 400, .report (.bare .disconnected), .wait 600] w = [] := rfl
  have hlasts : Course.Lasts out .connecting serial
      [.wait 400, .report (.bare .disconnected), .wait 600] w := by
    refine ⟨⟨rfl, trivial, rfl, trivial⟩, by simp [Move.intervenes], ?_, ?_⟩
    · rw [hpassed]
      exact List.forall_mem_singleton.mpr rfl
    · rw [hnone]
      exact List.forall_mem_nil _
  obtain ⟨hawaits, -, -, hnext⟩ := h _ hlasts
  have hdeadline : w.clock.now + (⟨150, 3000⟩ : Delays ℤ).patience = 3200 := rfl
  have hcommits : Replay.commits w.rest.events = [(200, .bare .connecting)] := rfl
  rw [hpassed, hdeadline] at hawaits
  -- the call of the assumption is the first one
  have hserial : 0 = serial := Option.some.inj hawaits.armed
  obtain ⟨hfires, -⟩ := hnext .ring (Option.some_ne_none _)
  obtain ⟨hnow, hshown, -⟩ := hfires ⟨3200, 0, .giveUp⟩ rfl hserial
  rw [hdeadline] at hnow
  rw [hpassed, hdeadline, hcommits] at hshown
  obtain ⟨-, hsettles⟩ := hnext (.report (.bare .connecting)) trivial
  obtain ⟨hfallback, htiming, -⟩ := hsettles (.bare .connecting) rfl rfl
  simp only [w₁, w, out]
  exact ⟨⟨_, hawaits⟩, hnow, hshown, hfallback.trans rfl, htiming.trans rfl⟩

end TunnelView
