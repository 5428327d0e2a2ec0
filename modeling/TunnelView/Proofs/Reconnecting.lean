import TunnelView.Proofs.Order

/-!
# A disconnect on the way to a new connection is shown at an expiry only

A service that disconnects in order to connect anew is shown as connecting. Its report comes on show
only as a fallback, when the assumption before it is given up, and that takes the whole patience: an
assumption that is timed is always what was shown last, a patience before its deadline
(`Watch.Dated`). So nothing is shown between the two.

Key definitions: `Watch.Dated`, `Course.Expires`.
Key theorems: `Watch.Dated.meet`, `Watch.shown_reconnecting`, `Session.reconnecting_at_expiry_only`.
-/

namespace TunnelView

variable {τ ο σ : Type}

theorem Assumption.not_isReconnecting (a : Assumption) : a.status.isReconnecting = false := by
  cases a <;> rfl

namespace Watch

variable [AddCommGroup τ] {d : Delays τ} {m : Watch τ} {s : Status} {t : τ}

/-- An assumption that is timed is what was shown last, a patience before its deadline. -/
def Dated (d : Delays τ) (m : Watch τ) : Prop :=
  ∀ u, m.deadline = some u → ∃ t a rest,
    m.shown = (t, Assumption.status a) :: rest ∧ t + d.patience = u

namespace Dated

theorem of_untimed (h : m.deadline = none) : m.Dated d := by
  intro u hu
  rw [h] at hu
  contradiction

theorem of_same {m' : Watch τ} (h : m.Dated d) (hu : m'.deadline = m.deadline)
    (hs : m'.shown = m.shown) : m'.Dated d := by
  unfold Dated
  rw [hu, hs]
  exact h

theorem assume (h : m.Dated d) (a : Assumption) : (m.assume d a).Dated d := by
  unfold Watch.assume
  by_cases hc : m.closed
  · rw [if_pos hc]
    exact h
  · rw [if_neg hc]
    intro u hu
    obtain rfl := Option.some.inj hu
    exact ⟨m.now, a, m.shown, rfl, rfl⟩

theorem reveal (h : m.deadline = none) (s : Status) : (m.reveal d s).Dated d := by
  unfold Watch.reveal
  by_cases hs : s.isReconnecting
  · rw [if_pos hs]
    exact ((of_untimed h).assume .connecting).of_same rfl rfl
  · rw [if_neg hs]
    exact of_untimed h

/-- A report that passes leaves the assumption on show as it is, or drops it first. -/
theorem pass (h : m.Dated d) (hu : m.fallback = none → m.deadline = none) (s : Status) :
    (m.pass d s).Dated d := by
  unfold Watch.pass Watch.act
  by_cases hf : m.fallback.isNone
  · rw [if_pos hf]
    exact reveal (m := { m with deferred := none, lastActed := m.now })
      (hu (Option.isNone_iff_eq_none.mp hf)) s
  · rw [if_neg hf]
    split
    · exact reveal rfl s
    · exact h.of_same rfl rfl

variable [LinearOrder τ]

/-- **One move keeps an assumption dated.** -/
theorem meet (h : m.Dated d) (hm : m.Sound d) (move : Move τ) : (m.meet d move).Dated d := by
  have hu : m.fallback = none → m.deadline = none := fun hf => by
    have ht := hm.timed
    rw [hf] at ht
    exact Option.isNone_iff_eq_none.mp (Option.isSome_eq_false_iff.mp ht.symm)
  cases move with
  | report s =>
    rw [Watch.meet, Watch.receive]
    split
    · exact h
    · split
      · exact h.of_same rfl rfl
      · exact h.pass hu s
  | assume a => exact h.assume a
  | reset => exact of_untimed rfl
  | ring =>
    rw [Watch.meet]
    rcases m.next? with _ | ⟨t, s | _⟩
    · exact h
    · exact pass (m := m.wait t) (h.of_same rfl rfl) hu s
    · exact of_untimed (giveUp_deadline _)
  | wait time => exact h.of_same rfl rfl

variable [IsOrderedAddMonoid τ]

theorem meetAll (h : m.Dated d) (hm : m.Sound d) (hw : 0 < d.window) (hp : 0 < d.patience)
    {moves : List (Move τ)} (ha : m.AllowsAll d moves) : (m.meetAll d moves).Dated d := by
  induction moves generalizing m with
  | nil => exact h
  | cons move moves ih => exact ih (h.meet hm move) (hm.meet hw hp ha.1) ha.2

end Dated

theorem pass_shown_of_reconnecting (hs : s.isReconnecting) (m : Watch τ) :
    (m.pass d s).shown = m.shown ∨
      (m.pass d s).shown = (m.now, Assumption.connecting.status) :: m.shown := by
  have hreveal : ∀ m : Watch τ, (m.reveal d s).shown = m.shown ∨
      (m.reveal d s).shown = (m.now, Assumption.connecting.status) :: m.shown := fun m => by
    rw [Watch.reveal, if_pos hs, Watch.assume]
    split
    · exact .inl rfl
    · exact .inr rfl
  unfold Watch.pass Watch.act
  split
  · exact hreveal _
  · split
    · exact hreveal _
    · exact .inl rfl

variable [LinearOrder τ]

/-- A move shows a disconnect on the way to a new connection only when an assumption is given up. -/
theorem shown_reconnecting {move : Move τ} (hs : s.isReconnecting)
    (hshown : (m.meet d move).shown = (t, s) :: m.shown) :
    move = .ring ∧ ∃ u, m.next? = some (u, .giveUp) ∧ t = max m.now u := by
  obtain hsame | ⟨t', s', hnew, hsource⟩ := shown_meet (d := d) m move
  · rw [hsame] at hshown
    exact absurd hshown.symm (List.cons_ne_self _ _)
  · obtain ⟨rfl, rfl⟩ : t' = t ∧ s' = s := by
      rw [hnew] at hshown
      simpa using hshown
    cases hsource with
    | assumed _ a =>
      rw [a.not_isReconnecting] at hs
      contradiction
    | passed hpass =>
      obtain ⟨u, he⟩ := meet_of_passes hpass
      rw [he] at hnew
      obtain hp | hp := pass_shown_of_reconnecting (d := d) hs (m.wait u) <;> rw [hp] at hnew
      · exact absurd hnew.symm (List.cons_ne_self _ _)
      · obtain rfl : Assumption.connecting.status = s' :=
          congrArg Prod.snd (List.cons.inj hnew).1
        contradiction
    | givenUp hn hf =>
      rename_i u
      obtain ⟨-, -, -, -, hgiven⟩ := meet_of_giveUp (d := d) hf hn
      rw [hgiven] at hnew
      obtain ⟨rfl, -⟩ : max m.now u = t' ∧ s' = s' := by simpa using hnew
      exact ⟨rfl, u, hn, rfl⟩

end Watch

/-! ### Sessions -/

section Sessions

variable [AddCommGroup τ] [LinearOrder τ] [IsOrderedAddMonoid τ]

/-- After a course the call that gives the assumption on show up fires out of its slot, at `t`. -/
def Course.Expires (out : Outside τ ο) (moves : List (Move τ)) (t : τ) (w : World τ ο) : Prop :=
  ∃ call, Move.ring.fires (Course.run out moves w) = some call ∧ call.call = .giveUp ∧
    call.deadline = t ∧ (Course.run out moves w).rest.view.timeout.armed = some call.serial

/-- What a course shows, with the times, the newest first. -/
def Course.shown (out : Outside τ ο) (moves : List (Move τ)) (w : World τ ο) : List (τ × Status) :=
  Replay.commits (Course.run out moves w).rest.events

variable {fine : ο → Prop} {d : Delays τ} {w : World τ ο} {out : Outside τ ο} {now : τ}
  {moves : List (Move τ)} {s : Status} {t : τ}

omit [IsOrderedAddMonoid τ] in
/-- When the next deadline gives an assumption up, its call fires out of its slot. -/
theorem Matches.expires {m : Watch τ} (h : Matches fine d (Course.run out moves w) m)
    (hn : m.next? = some (t, .giveUp)) : Course.Expires out moves t w := by
  obtain ⟨call, hfires, hcall, harmed⟩ := h.fires_giveUp hn
  have hdue : m.next? = some (call.deadline, .giveUp) := (h.next?_of_fires hfires harmed).2
  rw [hn] at hdue
  obtain ⟨rfl, -⟩ := Prod.mk.inj (Option.some.inj hdue)
  exact ⟨call, hfires, hcall, rfl, harmed⟩

/-- An assumption that is timed is dated by what was shown, also if the reports are marked. -/
theorem Watch.dated_afterMarked (hw : 0 < d.window) (hp : 0 < d.patience)
    (ha : (Watch.start now).AllowsAll d moves) : (Watch.afterMarked d now moves).Dated d := by
  have hR := Status.likeness_standsFor (Course.reports moves)
  have halike := Course.alike_marked [] [] moves
  rw [List.append_nil] at halike
  rw [(Watch.Alike.start hR now).allowsAll_iff hR halike] at ha
  exact Watch.Dated.meetAll (.of_untimed rfl) (.start now) hw hp ha

/-- A course ends with an expiry that shows `s` at `t`; what it showed before is `earlier`, and the
newest of that was assumed a patience before. -/
structure Course.Reveals (d : Delays τ) (out : Outside τ ο) (before : List (Move τ))
    (earlier : List (τ × Status)) (t : τ) (s : Status) (w : World τ ο) : Prop where
  past : shown out before w = earlier
  present : shown out (before ++ [.ring]) w = (t, s) :: earlier
  expires : Expires out before t w
  assumed : ∃ u a rest, earlier = (u, Assumption.status a) :: rest ∧ u + d.patience = t
  origin : ∃ rest, origins out before w = none :: rest

theorem Matches.shown_course (h : Matches fine d w (Watch.start now)) (hout : out.LooksOn fine)
    (hw : 0 < d.window) (hp : 0 < d.patience) (hposs : Course.Possible out moves w) :
    Course.shown out moves w = ((Watch.start now).meetAll d moves).shown :=
  (h.course (.start now) hout hw hp hposs).1.shown

/-- A move that shows a disconnect on the way to a new connection is such an expiry. -/
theorem Matches.reveals (h : Matches fine d w (Watch.start now)) (hout : out.LooksOn fine)
    (hw : 0 < d.window) (hp : 0 < d.patience) {move : Move τ}
    (hposs : Course.Possible out (moves ++ [move]) w) (hs : s.isReconnecting)
    (hshown : Course.shown out (moves ++ [move]) w = (t, s) :: Course.shown out moves w) :
    move = .ring ∧ Course.Reveals d out moves (Course.shown out moves w) t s w := by
  have hbefore := (Course.possible_append.mp hposs).1
  obtain ⟨h₁, hm₁⟩ := h.course (.start now) hout hw hp hbefore
  have hallows := (h.possible_course_iff (.start now) hout hw hp moves).mp hbefore
  have hdated : ((Watch.start now).meetAll d moves).Dated d :=
    Watch.Dated.meetAll (.of_untimed rfl) (.start now) hw hp hallows
  have hmeet : (((Watch.start now).meetAll d moves).meet d move).shown =
      (t, s) :: ((Watch.start now).meetAll d moves).shown := by
    rw [h.shown_course hout hw hp hposs, h.shown_course hout hw hp hbefore,
      Watch.meetAll_append] at hshown
    exact hshown
  obtain ⟨rfl, u, hn, ht⟩ := Watch.shown_reconnecting hs hmeet
  have hu := Watch.deadline_of_next? hn
  rw [max_eq_right (hm₁.deadline u hu).1] at ht
  obtain rfl := ht
  refine ⟨rfl, rfl, hshown, h₁.expires hn, ?_, ?_⟩
  · rw [h.shown_course hout hw hp hbefore]
    exact hdated t hu
  · have hmarked : (Watch.afterMarked d now moves).deadline = some t := by
      rw [← (Watch.alike_afterMarked d now moves []).deadline]
      exact hu
    obtain ⟨_, a, rest, hrest, -⟩ := Watch.dated_afterMarked hw hp hallows t hmarked
    rw [h.origins_eq hout hw hp hbefore, hrest]
    exact ⟨_, congrArg (· :: _) a.mark?_status⟩

/-- Whatever is on the list of what a course shows was put there by one of its moves. -/
theorem Matches.exists_reveals (h : Matches fine d w (Watch.start now)) (hout : out.LooksOn fine)
    (hw : 0 < d.window) (hp : 0 < d.patience) (hposs : Course.Possible out moves w)
    {later earlier : List (τ × Status)} (hs : s.isReconnecting)
    (hshown : Course.shown out moves w = later ++ (t, s) :: earlier) :
    ∃ before after, moves = before ++ .ring :: after ∧
      Course.Reveals d out before earlier t s w := by
  have hcourse : ∀ {moves}, Course.Possible out moves w →
      Course.shown out moves w = ((Watch.start now).meetAll d moves).shown :=
    fun hposs => h.shown_course hout hw hp hposs
  induction moves using List.reverseRecOn generalizing later with
  | nil =>
    rw [hcourse hposs] at hshown
    simp [Watch.meetAll, Watch.start] at hshown
  | append_singleton moves move ih =>
    have hbefore := (Course.possible_append.mp hposs).1
    have hmeet : Course.shown out (moves ++ [move]) w =
        (((Watch.start now).meetAll d moves).meet d move).shown := by
      rw [hcourse hposs, Watch.meetAll_append]
      rfl
    have hearlier : ∀ {later}, Course.shown out moves w = later ++ (t, s) :: earlier →
        ∃ before after, moves ++ [move] = before ++ .ring :: after ∧
          Course.Reveals d out before earlier t s w := fun hl => by
      obtain ⟨before, after, rfl, hr⟩ := ih hbefore hl
      exact ⟨before, after ++ [move], by simp, hr⟩
    obtain hsame | ⟨t', s', hnew, -⟩ :=
      Watch.shown_meet (d := d) ((Watch.start now).meetAll d moves) move
    · rw [hmeet, hsame, ← hcourse hbefore] at hshown
      exact hearlier hshown
    · rw [hmeet, hnew, ← hcourse hbefore] at hshown
      cases later with
      | cons _ later => exact hearlier (List.cons.inj hshown).2
      | nil =>
        obtain ⟨hfirst, rfl⟩ := List.cons.inj hshown
        have hthis : Course.shown out (moves ++ [move]) w =
            (t, s) :: Course.shown out moves w := by
          rw [hmeet, hnew, hfirst, hcourse hbefore]
        obtain ⟨rfl, hr⟩ := h.reveals hout hw hp hposs hs hthis
        exact ⟨moves, [], rfl, hr⟩

variable {host : Host τ σ} {fuel : ℕ}

/-- **A disconnect on the way to a new connection is shown at an expiry only.** What operations do to
a view, if they do not close it, is a course, and wherever such a disconnect stands on the list of
what they show, it was shown when the call fired that gives the assumption on show up. What was shown
before it, with nothing in between, is that assumption, a patience earlier, and no report. -/
theorem Session.reconnecting_at_expiry_only (hhost : host.LooksOn) (hw : 0 < d.window)
    (hp : 0 < d.patience) (hf : 4 ≤ fuel) {client : Client σ} (hc : client.Undisturbed) (now : τ)
    {ops : List (Op τ)} (hops : ∀ op ∈ ops, op.onView ∧ op.closes = false) :
    let out := outside host fuel
    let w := Session.start d now client
    ∃ moves, moves.filter Move.isAsked = ops.flatMap Op.asks ∧ Course.Possible out moves w ∧
      Session.after host fuel ops w = Course.run out moves w ∧
      ∀ later t s earlier,
        Replay.commits (Session.after host fuel ops w).rest.events = later ++ (t, s) :: earlier →
        s.isReconnecting → ∃ before after, moves = before ++ .ring :: after ∧
          Course.Reveals d out before earlier t s w := by
  intro out w
  obtain ⟨n, rfl⟩ : ∃ n, fuel = n + 1 := ⟨fuel - 1, by omega⟩
  have hout : out.LooksOn Client.Undisturbed := outside_looksOn hhost n
  have h : Matches Client.Undisturbed d w (Watch.start now) := .start client hc now
  obtain ⟨moves, hasked, hposs, hrun⟩ := h.exists_course (.start now) hhost hw hp hf hops
  refine ⟨moves, hasked, hposs, hrun, fun later t s earlier hcommits hs => ?_⟩
  rw [hrun] at hcommits
  exact h.exists_reveals hout hw hp hposs hs hcommits

end Sessions

/-- A disconnect that was stored while the user waits for a connection. -/
theorem Session.reconnecting_at_expiry_only_stored :
    let out := outside (τ := ℤ) Replay.silent 5
    let ops : List (Op ℤ) := [.advance 200, .expect (.text "connecting"), .advance 500,
      .notify (.ready (.bare (.disconnecting .reconnect))), .idle 10000]
    let w := Session.start ⟨150, 3000⟩ 0 { memory := () }
    ∃ before after, Session.after Replay.silent 5 ops w =
        Course.run out (before ++ .ring :: after) w ∧
      Course.Reveals ⟨150, 3000⟩ out before [(200, Assumption.connecting.status)] 3200
        (.bare (.disconnecting .reconnect)) w := by
  intro out ops w
  have hops : ∀ op ∈ ops, op.onView ∧ op.closes = false := by simp [ops, Op.onView, Op.closes]
  obtain ⟨moves, -, -, hrun, hreveals⟩ := Session.reconnecting_at_expiry_only (d := ⟨150, 3000⟩)
    Replay.silent_looksOn (by decide) (by decide) (show 4 ≤ 5 by decide)
    (Client.undisturbed_alone ()) 0 hops
  obtain ⟨before, after, rfl, hr⟩ := hreveals [] 3200 (.bare (.disconnecting .reconnect))
    [(200, Assumption.connecting.status)] rfl rfl
  refine ⟨before, after, ?_⟩
  with_reducible_and_instances exact ⟨hrun, hr⟩

end TunnelView
