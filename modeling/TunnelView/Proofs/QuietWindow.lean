import TunnelView.Proofs.Watch.QuietWindow

/-!
# The quiet window lets through trailing edges

A report is acted on at once if none is put off and the window has passed since one was last acted
on. Any other is acted on a window after it came, if the clock gets there before the next report
comes in. Which reports are acted on, and when, is a matter of their times alone (`trailing`):
assumptions that are made or dropped on the way make no difference, and two reports are never acted
on within a window.

A report may also come in just when one that was put off is due, if the clock stopped short of it;
then it takes the other's place. The clock stops so only where its limit on firings ends a run until
idle (`Session.exists_timely_course`), and then an assumption that is given up on the way does make a
difference (`Session.quiet_window_cut_short`).

Key definitions: `Course.arrivals`, `Course.processed`, `Course.Timely`.
Key theorems: `Matches.course_times`, `Session.exists_timely_course`, `Session.quiet_window`.
-/

namespace TunnelView

variable {τ ο σ : Type}

/-! ### Reports with their times -/

section Courses

variable [LinearOrder τ]

/-- Whether a call is that of a report which was put off. -/
def Alarm.isDeferred : Alarm → Bool
  | .deferred _ => true
  | .giveUp => false

/-- Whether the call of a report that was put off is due. -/
def World.Overdue (w : World τ ο) : Prop :=
  ∃ t ∈ w.clock.timers, t.deadline ≤ w.clock.now ∧ t.call.isDeferred

instance (w : World τ ο) : Decidable w.Overdue :=
  inferInstanceAs (Decidable (∃ t ∈ w.clock.timers, t.deadline ≤ w.clock.now ∧ t.call.isDeferred))

variable [AddCommGroup τ]

namespace Course

/-- The reports that come in in a course, in order, each with its time. -/
def arrivals (out : Outside τ ο) : List (Move τ) → World τ ο → List (τ × Status)
  | [], _ => []
  | move :: moves, w =>
    (move.reported?.map (w.clock.now, ·)).toList ++ arrivals out moves (move.run out w).2

/-- The reports that pass the quiet window in a course, in order, each with the time when it is
acted on. -/
def processed (out : Outside τ ο) : List (Move τ) → World τ ο → List (τ × Status)
  | [], _ => []
  | move :: moves, w =>
    ((move.passes w).map ((move.run out w).2.clock.now, ·)).toList ++
      processed out moves (move.run out w).2

/-- Whether no report comes in, and the course does not end, while the call of one that was put off
is due. -/
def Timely (out : Outside τ ο) : List (Move τ) → World τ ο → Prop
  | [], w => ¬w.Overdue
  | move :: moves, w =>
    (move.reported?.isSome → ¬w.Overdue) ∧ Timely out moves (move.run out w).2

instance decidableTimely (out : Outside τ ο) : (moves : List (Move τ)) → (w : World τ ο) →
    Decidable (Timely out moves w)
  | [], w => inferInstanceAs (Decidable ¬w.Overdue)
  | move :: moves, w =>
    have := decidableTimely out moves (move.run out w).2
    inferInstanceAs (Decidable
      ((move.reported?.isSome → ¬w.Overdue) ∧ Timely out moves (move.run out w).2))

variable {out : Outside τ ο} {before after : List (Move τ)} {w : World τ ο}

theorem timely_append (h : Timely out (before ++ after) w) :
    Timely out after (run out before w) := by
  induction before generalizing w with
  | nil => exact h
  | cons move before ih => exact ih h.2

theorem timely_quiet (hquiet : ∀ move ∈ before, move.reported? = none)
    (hafter : ∀ next ∈ after.head?, next.reported?.isSome)
    (h : Timely out (before ++ after) w) : Timely out before w := by
  induction before generalizing w with
  | nil =>
    cases after with
    | nil => exact h
    | cons next after => exact h.1 (hafter next rfl)
  | cons move before ih => exact ⟨h.1, ih (fun next hn => hquiet next (by simp [hn])) h.2⟩

theorem timely_of_quiet (hquiet : ∀ move ∈ before, move.reported? = none)
    (h : Timely out after (run out before w)) : Timely out (before ++ after) w := by
  induction before generalizing w with
  | nil => exact h
  | cons move before ih =>
    have hmove : move.reported? = none := hquiet move (by simp)
    exact ⟨by simp [hmove], ih (fun next hn => hquiet next (by simp [hn])) h⟩

end Course

/-! ### A view and its watch -/

variable {fine : ο → Prop} {d : Delays τ} {w : World τ ο} {m : Watch τ} {out : Outside τ ο}
  {moves : List (Move τ)}

omit [AddCommGroup τ] in
theorem Matches.overdue_iff (h : Matches fine d w m) : w.Overdue ↔ m.Overdue := by
  obtain ⟨i, j, -, -, htimers, -⟩ := h.calls
  rw [World.Overdue, htimers, h.now]
  constructor
  · rintro ⟨t, ht, hle, hs⟩
    obtain ⟨s, u, hu, rfl⟩ | ⟨u, -, rfl⟩ := mem_calls.mp ht
    · exact ⟨s, u, hu, hle⟩
    · contradiction
  · rintro ⟨s, u, hu, hle⟩
    exact ⟨_, mem_calls.mpr (.inl ⟨s, u, hu, rfl⟩), hle, rfl⟩

/-- A course and the same course of a watch: the same reports come in at the same times, the same
are acted on at the same times, and both are timely or neither is. -/
theorem Matches.course_times [IsOrderedAddMonoid τ] (h : Matches fine d w m) (hm : m.Sound d)
    (hout : out.LooksOn fine) (hw : 0 < d.window) (hp : 0 < d.patience)
    (hposs : Course.Possible out moves w) :
    Course.arrivals out moves w = m.arrivals d moves ∧
      Course.processed out moves w = m.processed d moves ∧
      (Course.Timely out moves w ↔ m.Timely d moves) := by
  induction moves generalizing w m with
  | nil => exact ⟨rfl, rfl, not_congr h.overdue_iff⟩
  | cons move moves ih =>
    have ha := (h.possible_iff move).mp hposs.1
    have h₁ := (h.meet hm hout hw hp hposs.1).2
    obtain ⟨harrivals, hprocessed, htimely⟩ := ih h₁ (hm.meet hw hp ha) hposs.2
    refine ⟨?_, ?_, ?_⟩
    · rw [Course.arrivals, Watch.arrivals, h.now, harrivals]
    · rw [Course.processed, Watch.processed, h.passes_eq hm, h₁.now, hprocessed]
    · rw [Course.Timely, Watch.Timely, h.overdue_iff, htimely]

section Accounts

variable [IsOrderedAddMonoid τ] (h : Matches fine d w m) (hm : m.Sound d) (hout : out.LooksOn fine)
  (hw : 0 < d.window) (hp : 0 < d.patience)

include h hm hout hw hp

/-- A view remembers when it last acted on a report. -/
theorem Matches.lastActed_course (hposs : Course.Possible out moves w) :
    (Course.run out moves w).rest.view.lastActed =
      ((Course.processed out moves w).map Prod.fst).getLastD w.rest.view.lastActed := by
  have ha := (h.possible_course_iff hm hout hw hp moves).mp hposs
  obtain ⟨-, hprocessed, -⟩ := h.course_times hm hout hw hp hposs
  rw [(h.course hm hout hw hp hposs).1.lastActed, Watch.lastActed_eq hm hw hp ha, hprocessed,
    h.lastActed]

/-- Until the next report nothing but the last one is acted on. -/
theorem Matches.processed_report (hc : w.rest.view.closed = false) {s : Status}
    {quiet : List (Move τ)} (hquiet : ∀ move ∈ quiet, move.reported? = none)
    (hposs : Course.Possible out (.report s :: quiet) w)
    (htimely : Course.Timely out (.report s :: quiet) w) :
    Course.processed out (.report s :: quiet) w =
      if w.rest.view.deferring = false ∧ w.rest.view.lastActed + d.window ≤ w.clock.now then
        [(w.clock.now, s)]
      else if w.clock.now + d.window ≤ (Course.run out (.report s :: quiet) w).clock.now then
        [(w.clock.now + d.window, s)]
      else [] := by
  have ha := (h.possible_course_iff hm hout hw hp _).mp hposs
  obtain ⟨-, hprocessed, ht⟩ := h.course_times hm hout hw hp hposs
  have hnone : m.deferred = none ↔ w.rest.view.deferring = false := by
    rw [h.deferring]
    simp
  have hopen : m.closed = false := h.closed ▸ hc
  rw [hprocessed, Watch.processed_report hm hw hp hopen hquiet ha (ht.mp htimely), h.now,
    h.lastActed, (h.course hm hout hw hp hposs).1.now]
  simp only [hnone]

end Accounts
end Courses

/-! ### Sessions -/

section Sessions

variable [AddCommGroup τ] [LinearOrder τ] [IsOrderedAddMonoid τ] {d : Delays τ} {host : Host τ σ}
  {fuel : ℕ} {client : Client σ} {moves : List (Move τ)}

/-- An operation that closes nothing runs a course, and a report that it hands to the view comes in
at once. -/
theorem Op.exists_prompt_course {w : World τ (Client σ)} {m : Watch τ}
    (h : Matches Client.Undisturbed d w m) (hm : m.Sound d) (hhost : host.LooksOn)
    (hw : 0 < d.window) (hp : 0 < d.patience) (hf : 4 ≤ fuel) {op : Op τ} (hop : op.onView)
    (hc : op.closes = false) :
    ∃ moves, moves.filter Move.isAsked = op.asks ∧
      Course.Possible (outside host fuel) moves w ∧
      (op.run (outside host fuel) fuel w).2 = Course.run (outside host fuel) moves w ∧
      ((∃ r s, op = .notify r ∧ moves = [.report s]) ∨ ∀ move ∈ moves, move.reported? = none) := by
  obtain ⟨moves, ha, hposs, he⟩ := Op.exists_course h hm hhost hw hp hf hop hc
  have hquiet (hasks : ∀ move ∈ op.asks, move.reported? = none) :
      ∀ move ∈ moves, move.reported? = none := by
    intro move hmove
    by_contra hr
    have hasked : move ∈ moves.filter Move.isAsked :=
      List.mem_filter.mpr ⟨hmove, Move.isAsked_of_reported hr⟩
    exact hr (hasks move (ha ▸ hasked))
  cases op
  case notify r =>
    cases hr : r.read with
    | error fault => exact ⟨moves, ha, hposs, he, .inr (hquiet (by simp [Op.asks, hr, Except.toOption]))⟩
    | ok s =>
      refine ⟨[.report s], by simp [Op.asks, hr, Except.toOption, Move.isAsked], ⟨trivial, trivial⟩, ?_,
        .inl ⟨r, s, rfl, rfl⟩⟩
      simp only [Op.run, hr, silently_apply]
      rfl
  all_goals exact ⟨moves, ha, hposs, he, .inr (hquiet (by simp [Op.asks, Move.reported?]))⟩

theorem Matches.exists_timely_course {w : World τ (Client σ)} {m : Watch τ}
    (h : Matches Client.Undisturbed d w m) (hm : m.Sound d) (hhost : host.LooksOn)
    (hw : 0 < d.window) (hp : 0 < d.patience) (hf : 4 ≤ fuel) {ops : List (Op τ)}
    (hops : ∀ op ∈ ops, op.onView ∧ op.closes = false)
    (hdue : ∀ before after, ops = before ++ after → (∀ op ∈ after.head?, ∃ r, op = .notify r) →
      ¬(Session.after host fuel before w).Overdue) :
    ∃ moves, moves.filter Move.isAsked = ops.flatMap Op.asks ∧
      Course.Possible (outside host fuel) moves w ∧ Course.Timely (outside host fuel) moves w ∧
      Session.after host fuel ops w = Course.run (outside host fuel) moves w := by
  induction ops generalizing w m with
  | nil => exact ⟨[], rfl, trivial, hdue [] [] rfl (by simp), rfl⟩
  | cons op ops ih =>
    obtain ⟨hop, hc⟩ := hops op (by simp)
    obtain ⟨first, ha, hposs, he, hfirst⟩ :=
      Op.exists_prompt_course h hm hhost hw hp hf hop hc
    have h₁ := (h.runOp hm.ripe hhost hw hp hf hop).2
    have hrest : ∀ op ∈ ops, op.onView ∧ op.closes = false := fun op hop => hops op (by simp [hop])
    obtain ⟨rest, ha', hposs', htimely', he'⟩ := ih h₁ (hm.runOp hw hp op) hrest
      fun before after hsplit => hdue (op :: before) after (by rw [hsplit]; rfl)
    rw [he] at hposs' htimely' he'
    refine ⟨first ++ rest, ?_, Course.possible_append.mpr ⟨hposs, hposs'⟩, ?_, ?_⟩
    · rw [List.filter_append, ha, ha', List.flatMap_cons]
    · obtain ⟨r, s, rfl, rfl⟩ | hquiet := hfirst
      · have hlate : ¬w.Overdue := hdue [] (.notify r :: ops) rfl (by simp)
        exact ⟨fun _ => hlate, htimely'⟩
      · exact Course.timely_of_quiet hquiet htimely'
    · rw [Course.run_append, ← he', ← he]
      rfl

/-- Nothing is overdue after operations of which no run until idle is cut short. -/
theorem Session.not_overdue (hhost : host.LooksOn) (hw : 0 < d.window) (hp : 0 < d.patience)
    (hf : 4 ≤ fuel) (hc : client.Undisturbed) (now : τ) {ops : List (Op τ)}
    (hops : ∀ op ∈ ops, op.onView)
    (hcut : ¬Session.CutShort host fuel ops (Session.start d now client)) :
    ¬(Session.after host fuel ops (Session.start d now client)).Overdue := by
  rintro ⟨t, ht, hle, -⟩
  have h₀ : Matches Client.Undisturbed d (Session.start d now client) (Watch.start now) :=
    .start client hc now
  have hprompt := (h₀.prompt_or_cutShort (.start now) (.start now) hhost hw hp hf hops).resolve_right
    hcut
  have h := h₀.after (.start now) hhost hw hp hf hops
  exact absurd hle (h.lt_deadline hprompt ht).not_ge

/-- **A session is a timely course**, if whenever a report is handed to the view, and at the end, no
run until idle was cut short at the time that the clock shows. -/
theorem Session.exists_timely_course (hhost : host.LooksOn) (hw : 0 < d.window)
    (hp : 0 < d.patience) (hf : 4 ≤ fuel) (hc : client.Undisturbed) (now : τ) {ops : List (Op τ)}
    (hops : ∀ op ∈ ops, op.onView ∧ op.closes = false)
    (hcut : ∀ before after, ops = before ++ after → (∀ op ∈ after.head?, ∃ r, op = .notify r) →
      ¬Session.CutShort host fuel before (Session.start d now client)) :
    ∃ moves, moves.filter Move.isAsked = ops.flatMap Op.asks ∧
      Course.Possible (outside host fuel) moves (Session.start d now client) ∧
      Course.Timely (outside host fuel) moves (Session.start d now client) ∧
      Session.after host fuel ops (Session.start d now client) =
        Course.run (outside host fuel) moves (Session.start d now client) := by
  refine (Matches.start client hc now).exists_timely_course (.start now) hhost hw hp hf hops ?_
  intro before after hsplit hafter
  have hbefore : ∀ op ∈ before, op.onView := fun op hop => (hops op (by simp [hsplit, hop])).1
  exact Session.not_overdue hhost hw hp hf hc now hbefore (hcut before after hsplit hafter)

/-- What passes the quiet window of a session is what a trailing-edge filter lets through. -/
theorem Session.processed_eq_trailing (hhost : host.LooksOn) (hw : 0 < d.window)
    (hp : 0 < d.patience) (hf : 0 < fuel) (hc : client.Undisturbed) (now : τ)
    (hposs : Course.Possible (outside host fuel) moves (Session.start d now client))
    (htimely : Course.Timely (outside host fuel) moves (Session.start d now client)) :
    Course.processed (outside host fuel) moves (Session.start d now client) =
      trailing d.window
        (Course.run (outside host fuel) moves (Session.start d now client)).clock.now false now
        (Course.arrivals (outside host fuel) moves (Session.start d now client)) := by
  obtain ⟨n, rfl⟩ : ∃ n, fuel = n + 1 := ⟨fuel - 1, by omega⟩
  have hout := outside_looksOn (τ := τ) hhost n
  have h₀ : Matches Client.Undisturbed d (Session.start d now client) (Watch.start now) :=
    .start client hc now
  have hm₀ : Watch.Sound d (Watch.start now) := .start now
  obtain ⟨harrivals, hprocessed, ht⟩ := h₀.course_times hm₀ hout hw hp hposs
  have ha := (h₀.possible_course_iff hm₀ hout hw hp moves).mp hposs
  rw [harrivals, hprocessed, (h₀.course hm₀ hout hw hp hposs).1.now]
  exact Watch.processed_eq hm₀ hw hp rfl ha (ht.mp htimely)

/-- **The quiet window is a trailing-edge filter, and assumptions do not disturb it.** In a course
in which no report comes in while one that was put off is due:
what passes is what a trailing-edge filter lets through of the reports with their times;
a report is acted on at once just if none is put off and the window has passed since one was last
acted on, and otherwise a window later just if the clock gets there before the next report comes in;
no two reports are acted on within a window;
and any other such course with the same reports at the same times and the same end acts on the same
reports at the same times, whatever is assumed or dropped in either.
(What a session does is such a course: `Session.exists_timely_course`.) -/
theorem Session.quiet_window (hhost : host.LooksOn) (hw : 0 < d.window) (hp : 0 < d.patience)
    (hf : 0 < fuel) (hc : client.Undisturbed) (now : τ)
    (hposs : Course.Possible (outside host fuel) moves (Session.start d now client))
    (htimely : Course.Timely (outside host fuel) moves (Session.start d now client)) :
    let out := outside host fuel
    let w₀ := Session.start d now client
    let ending := (Course.run out moves w₀).clock.now
    Course.processed out moves w₀ =
      trailing d.window ending false now (Course.arrivals out moves w₀) ∧
    (∀ before s quiet after, moves = before ++ (.report s :: quiet ++ after) →
      (∀ move ∈ quiet, move.reported? = none) → (∀ next ∈ after.head?, next.reported?.isSome) →
      let w := Course.run out before w₀
      let last := ((Course.processed out before w₀).map Prod.fst).getLastD now
      Course.processed out (.report s :: quiet) w =
        if w.rest.view.deferring = false ∧ last + d.window ≤ w.clock.now then [(w.clock.now, s)]
        else if w.clock.now + d.window ≤ (Course.run out (.report s :: quiet) w).clock.now then
          [(w.clock.now + d.window, s)]
        else []) ∧
    (Course.processed out moves w₀).Pairwise (fun p q => p.1 + d.window ≤ q.1) ∧
    ∀ moves', Course.Possible out moves' w₀ → Course.Timely out moves' w₀ →
      Course.arrivals out moves' w₀ = Course.arrivals out moves w₀ →
      (Course.run out moves' w₀).clock.now = ending →
      Course.processed out moves' w₀ = Course.processed out moves w₀ := by
  intro out w₀ ending
  have hfilter {moves' : List (Move τ)} (hposs : Course.Possible out moves' w₀)
      (htimely : Course.Timely out moves' w₀) : Course.processed out moves' w₀ =
        trailing d.window (Course.run out moves' w₀).clock.now false now
          (Course.arrivals out moves' w₀) :=
    Session.processed_eq_trailing hhost hw hp hf hc now hposs htimely
  obtain ⟨n, rfl⟩ : ∃ n, fuel = n + 1 := ⟨fuel - 1, by omega⟩
  have hout : out.LooksOn Client.Undisturbed := outside_looksOn hhost n
  have h₀ : Matches Client.Undisturbed d w₀ (Watch.start now) := .start client hc now
  have hm₀ : Watch.Sound d (Watch.start now) := .start now
  refine ⟨hfilter hposs htimely, ?_, ?_, ?_⟩
  · rintro before s quiet after rfl hquiet hafter
    intro w last
    obtain ⟨hbefore, hposs⟩ := Course.possible_append.mp hposs
    obtain ⟨h, hm⟩ := h₀.course hm₀ hout hw hp hbefore
    have hopen : w.rest.view.closed = false := h.closed.trans (Watch.meetAll_closed before)
    have hlast : w.rest.view.lastActed = last := h₀.lastActed_course hm₀ hout hw hp hbefore
    have hsegment := (Course.possible_append.mp hposs).1
    have hfollows := Course.timely_append htimely
    have hquietly : Course.Timely out (.report s :: quiet) w :=
      ⟨hfollows.1, Course.timely_quiet hquiet hafter hfollows.2⟩
    rw [← hlast]
    exact h.processed_report hm hout hw hp hopen hquiet hsegment hquietly
  · have ha := (h₀.possible_course_iff hm₀ hout hw hp moves).mp hposs
    rw [(h₀.course_times hm₀ hout hw hp hposs).2.1]
    exact (hm₀.processed_spaced hw hp ha).2
  · intro moves' hposs' htimely' harrivals hending
    rw [hfilter hposs' htimely', harrivals, hending, ← hfilter hposs htimely]

end Sessions

/-- A report that is acted on at once and one that is put off, the same whether or not an assumption
is made and dropped in between. -/
theorem Session.quiet_window_two_reports :
    let out := outside (τ := ℤ) Replay.silent 1
    let w₀ := Session.start ⟨150, 3000⟩ 0 { memory := () }
    let phases := List.map fun p : ℤ × Status => (p.1, p.2.phase)
    let plain : List (Move ℤ) :=
      [.wait 200, .report (.bare .disconnected), .wait 250, .report (.bare .connected), .ring]
    let assuming : List (Move ℤ) := [.wait 200, .report (.bare .disconnected),
      .assume .disconnecting, .wait 250, .report (.bare .connected), .reset, .ring]
    phases (Course.arrivals out assuming w₀) = [(200, .disconnected), (250, .connected)] ∧
      phases (Course.processed out assuming w₀) = [(200, .disconnected), (400, .connected)] ∧
      Course.processed out plain w₀ = Course.processed out assuming w₀ := by
  intro out w₀ phases plain assuming
  obtain ⟨⟨hposs, htimely⟩, ⟨hposs', htimely'⟩, hending, hreports, hacted⟩ :
      (Course.Possible out plain w₀ ∧ Course.Timely out plain w₀) ∧
      (Course.Possible out assuming w₀ ∧ Course.Timely out assuming w₀) ∧
      (Course.run out plain w₀).clock.now = (Course.run out assuming w₀).clock.now ∧
      phases (Course.arrivals out assuming w₀) = [(200, .disconnected), (250, .connected)] ∧
      phases (Course.processed out assuming w₀) = [(200, .disconnected), (400, .connected)] := by
    decide +kernel +revert
  have harrivals : Course.arrivals out plain w₀ = Course.arrivals out assuming w₀ := rfl
  refine ⟨hreports, hacted, ?_⟩
  -- with the moves in sight, comparing the two statements would run both courses again
  clear_value plain assuming
  obtain ⟨-, -, -, hsame⟩ := Session.quiet_window Replay.silent_looksOn (by decide) (by decide)
    (by decide) (Client.undisturbed_alone ()) 0 hposs' htimely'
  exact hsame plain hposs htimely harrivals hending

/-- With a limit of one, running until idle gives an assumption up and leaves the report that is due
at the same time, whose place the next report takes. Without the assumption it is acted on. -/
theorem Session.quiet_window_cut_short :
    let out := outside (τ := ℤ) Replay.silent 5
    let w₀ := Session.start ⟨150, 3000⟩ 0 { memory := () }
    let phases := List.map fun p : ℤ × Status => (p.1, p.2.phase)
    let a : Status := .bare .disconnected
    let b : Status := .bare .connected
    let c : Status := .bare .connecting
    let ops : List (Op ℤ) := [.advance 2849, .notify (.ready a), .advance 1, .notify (.ready b),
      .idle 1, .notify (.ready c), .idle 10]
    let moves : List (Move ℤ) := [.wait 2849, .report a, .wait 2850, .report b, .ring, .report c,
      .ring]
    let assuming := .assume .connecting :: moves
    Course.Possible out moves w₀ ∧ Course.Possible out assuming w₀ ∧
      phases (Course.arrivals out moves w₀) =
        [(2849, .disconnected), (2850, .connected), (3000, .connecting)] ∧
      phases (Course.arrivals out assuming w₀) =
        [(2849, .disconnected), (2850, .connected), (3000, .connecting)] ∧
      phases (Course.processed out moves w₀) =
        [(2849, .disconnected), (3000, .connected), (3150, .connecting)] ∧
      phases (Course.processed out assuming w₀) = [(2849, .disconnected), (3150, .connecting)] ∧
      (Course.run out moves w₀).clock.now = 3150 ∧ (Course.run out assuming w₀).clock.now = 3150 ∧
      phases (Replay.commits (Course.run out moves w₀).rest.events) =
        phases (Replay.commits (Session.after Replay.silent 5 ops w₀).rest.events) ∧
      phases (Replay.commits (Course.run out assuming w₀).rest.events) =
        phases (Replay.commits
          (Session.after Replay.silent 5 (.expect (.text "connecting") :: ops) w₀).rest.events) := by
  decide +kernel

end TunnelView
