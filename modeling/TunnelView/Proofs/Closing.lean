import TunnelView.Proofs.Diary

/-!
# Nothing is shown after a close

Four things lead to a new status: a report, a report that was put off, an assumption, and the end of
one. Each of them looks whether the view is closed, and none of them calls code outside between that
look and the moment at which it shows the status. So once an operation that closes the view has
ended, no status is shown any more and the one on show stays, whatever comes later: also what is
left of the operations that were under way when the view was closed from inside of them.

The invariant is about the diary. It says of each close that it tells of that nothing was shown
since. No status can be shown on a closed view, so a view that is open has no close in its diary.

Key definitions: `Moment.closes`, `Moment.shows`, `World.Shut`.
Key theorems: `World.shut_steady`, `Stays.noted_shut`, `Player.nothing_shown_after_close`.
-/

namespace TunnelView

variable {τ σ : Type}

/-- Whether an operation has ended that closes the view. -/
def Moment.closes : Moment τ → Bool
  | .ends op _ => op.closes
  | _ => false

/-- Whether a status is shown. -/
def Moment.shows : Moment τ → Bool
  | .calls (.shown _) => true
  | _ => false

/-- Since each close nothing was shown, and the view is closed. -/
def World.Shut (w : World τ (Chronicled τ σ)) : Prop :=
  ∀ later e earlier, w.diary = later ++ e :: earlier → e.moment.closes →
    w.rest.view.closed ∧ w.rest.view.status = e.view.status ∧
      ∀ x ∈ later, x.moment.shows = false ∧ x.view.status = e.view.status

namespace World.Shut

variable {w w' : World τ (Chronicled τ σ)}

theorem start (delays : Delays τ) (now : τ) (client : Client σ) :
    (Session.start delays now client.chronicled).Shut := by
  intro later e earlier hdiary
  have hempty : [] = later ++ e :: earlier := hdiary
  simp at hempty

/-- Nothing changes for a view on which the same status stays. -/
theorem of_same (h : w.Shut) (hdiary : w'.diary = w.diary)
    (hstatus : w'.rest.view.status = w.rest.view.status)
    (hclosed : w.rest.view.closed → w'.rest.view.closed) : w'.Shut := by
  intro later e earlier hsplit he
  rw [hdiary] at hsplit
  obtain ⟨hshut, hsame, hlater⟩ := h later e earlier hsplit he
  exact ⟨hclosed hshut, hstatus.trans hsame, hlater⟩

/-- On an open view another status may come on show, since it was never closed. -/
theorem of_open (h : w.Shut) (hopen : w.rest.view.closed = false) (hdiary : w'.diary = w.diary) :
    w'.Shut := by
  intro later e earlier hsplit he
  rw [hdiary] at hsplit
  obtain ⟨hshut, -, -⟩ := h later e earlier hsplit he
  rw [hopen] at hshut
  contradiction

/-- A moment is written down; a status is shown on an open view only, and a close leaves it closed.
-/
theorem enter {m : Moment τ} (h : w.Shut) (hshows : m.shows → w.rest.view.closed = false)
    (hcloses : m.closes → w.rest.view.closed) : (w.enter m).Shut := by
  intro later e earlier hsplit he
  rw [World.diary_enter] at hsplit
  rcases later with _ | ⟨x, later⟩
  · obtain ⟨rfl, rfl⟩ := List.cons.inj hsplit
    exact ⟨hcloses he, rfl, fun x hx => absurd hx List.not_mem_nil⟩
  · obtain ⟨rfl, hbefore⟩ := List.cons.inj hsplit
    obtain ⟨hshut, hsame, hlater⟩ := h later e earlier hbefore he
    have hunshown : m.shows = false := by
      by_contra hm
      have hopen := hshows (by simpa using hm)
      rw [hopen] at hshut
      contradiction
    refine ⟨hshut, hsame, fun x hx => ?_⟩
    rcases List.mem_cons.mp hx with rfl | hx
    · exact ⟨hunshown, hsame⟩
    · exact hlater x hx

end World.Shut

section Sessions

variable [Zero τ] [Add τ] [LT τ] [DecidableLT τ] [LE τ] [DecidableLE τ]

/-- **Every step keeps a view shut**, if whoever is shown a status on an open view does. -/
theorem World.shut_steady {out : Outside τ (Chronicled τ σ)}
    (hshown : ∀ s {w}, w.Shut → w.rest.view.closed = false → (out.present s w).2.Shut) :
    Steady out World.Shut where
  step h hstep := by
    cases hstep with
    | notes n => exact h.of_same rfl rfl id
    | acts time => exact h.of_same rfl rfl id
    | keeps s => exact h.of_same rfl rfl id
    | shuts => exact h.of_same rfl rfl fun _ => rfl
    | turns s hopen => exact h.of_open hopen rfl
    | shows s hopen _ => exact hshown s h hopen
    | cancels a => cases a <;> exact h.of_same rfl rfl id
    | schedules a delay => cases a <;> exact h.of_same rfl rfl id
    | moves time => exact h.of_same rfl rfl id
    | tidies => exact h.of_same rfl rfl id
    | @fires _ t _ _ _ => rcases t with ⟨_, _, _ | _⟩ <;> exact h.of_same rfl rfl id
    | misses _ _ => exact h.of_same rfl rfl id
  link _ h := h.of_same rfl rfl id

variable [Sub τ]

/-- An operation that closes the view leaves it closed. -/
theorem Op.closed_of_closes {op : Op τ} (hop : op.closes) (out : Outside τ (Client σ)) (fuel : ℕ)
    (w : World τ (Client σ)) : (op.run out fuel w).2.rest.view.closed := by
  have hclose : ∀ w : World τ (Client σ), (View.close w).2.rest.view.closed := by
    intro w
    cases hc : w.rest.view.closed with
    | true =>
      rw [View.close_of_closed hc]
      exact hc
    | false =>
      rw [View.close_of_open hc]
      rfl
  cases op <;> simp only [Op.closes, Bool.false_eq_true] at hop
  case close =>
    simp only [Op.run, silently_apply]
    exact hclose _
  case closeView =>
    simp only [Op.run, silently_apply]
    exact hclose w

/-- Operations between their entries keep a view shut, if the calls of code outside do. -/
theorem Stays.noted_shut {out : Outside τ (Chronicled τ σ)} (fuel : ℕ) (op : Op τ)
    (hshown : ∀ s {w}, w.Shut → w.rest.view.closed = false → (out.present s w).2.Shut)
    (hsent : ∀ c, Stays World.Shut (out.send c)) :
    Stays World.Shut (TunnelView.noted (Op.run out fuel) op) := by
  have hsteady := World.shut_steady hshown
  refine .noted (fun h => h.enter nofun nofun) ?_ fun {w _ _} hrun h => ?_
  · by_cases hop : ∃ c, op = .command c
    · obtain ⟨c, rfl⟩ := hop
      exact hsteady.userAction hsent fuel c
    · exact hsteady.op fuel fun c hc => hop ⟨c, hc⟩
  · refine h.enter nofun fun hcloses => ?_
    have hclosed := Op.closed_of_closes hcloses out fuel w
    rwa [hrun] at hclosed

/-- **No call of a player shows a status on a closed view**, by induction on the depth of calls
inside calls. -/
theorem Player.outside_shut (player : Player τ σ) (n : ℕ) :
    (∀ s {w}, w.Shut → w.rest.view.closed = false → ((player.outside n).present s w).2.Shut) ∧
      ∀ c, Stays World.Shut ((player.outside n).send c) := by
  induction n with
  | zero =>
    exact ⟨fun s _ h hopen => h.enter (fun _ => hopen) nofun, fun c _ h => h.enter nofun nofun⟩
  | succ n ih =>
    have hplay : ∀ conduct : Conduct τ σ,
        Stays World.Shut (conduct.play (Op.run (player.outside n) n)) :=
      .play (fun _ _ h => h.of_same rfl rfl id) fun op => .noted_shut n op ih.1 ih.2
    exact ⟨fun s _ h hopen => hplay _ _ (h.enter (fun _ => hopen) nofun),
      fun c _ h => hplay _ _ (h.enter nofun nofun)⟩

/-- **Nothing is shown after a close.** Whatever code outside does when it is called, at any depth
and from the midst of any operation: after the end of an operation that closed the view no status is
shown any more, and the status on show stays as it was. -/
theorem Player.nothing_shown_after_close (player : Player τ σ) (fuel : ℕ) (ops : List (Op τ))
    (delays : Delays τ) (now : τ) (client : Client σ) {later earlier : List (Entry τ)} {e : Entry τ}
    (hdiary : (player.session fuel ops (Session.start delays now client.chronicled)).diary =
      later ++ e :: earlier) (he : e.moment.closes) :
    (∀ x ∈ later, x.moment.shows = false ∧ x.view.status = e.view.status) ∧
      (player.session fuel ops (Session.start delays now client.chronicled)).rest.view.status =
        e.view.status := by
  obtain ⟨hshown, hsent⟩ := player.outside_shut fuel
  have hshut : (player.session fuel ops (Session.start delays now client.chronicled)).Shut :=
    Player.session_stays (fun op => .noted_shut fuel op hshown hsent) (.start delays now client)
  obtain ⟨-, hstatus, hlater⟩ := hshut later e earlier hdiary he
  exact ⟨hlater, hstatus⟩

end Sessions

/-- A reconnect is shown as an assumption. Whoever is shown it closes the view, tries another
assumption and fails; then the alarm of the first one is set all the same, and rings. -/
theorem Player.nothing_shown_after_close_inside :
    let player : Player ℤ Unit := fun _ _ => .runs .close fun _ _ =>
      .runs (.expect (.text "disconnecting")) fun _ _ =>
        .back (.error (.failure (.foreign "OSError" "")))
    let ops : List (Op ℤ) := [.advance 200, .notify (.ready (.bare (.disconnecting .reconnect))),
      .advance 5000, .notify (.ready (.bare .connected))]
    let w := player.session 9 ops (Session.start ⟨150, 3000⟩ 0 (Client.chronicled { memory := () }))
    ∃ later e earlier, w.diary = later ++ e :: earlier ∧ e.moment.closes ∧ later.length = 7 ∧
      e.view.status = .bare .connecting ∧
      (∀ x ∈ later, x.moment.shows = false ∧ x.view.status = e.view.status) ∧
      w.rest.view.status = e.view.status := by
  refine ⟨_, _, _, World.diary_split (n := 7) (by decide), rfl, rfl, rfl, ?_⟩
  exact Player.nothing_shown_after_close _ 9 _ _ _ _ (World.diary_split (by decide)) rfl

end TunnelView
