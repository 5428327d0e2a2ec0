import TunnelView.Proofs.Diary

/-!
# Every command is backed by an assumption

A user action that is permitted shows what it should lead to and only then sends its command. So
whenever a command is sent, the status on show is what is assumed of the command, it came on show by
this very action, and what was on show before is kept until the alarm that is set for the end of the
assumption. This holds under any policy and for any code that commands are sent to, also code that
calls back, as long as whoever is shown a status calls nothing.

A view that is closed makes no assumptions, but commands go out all the same: then the status on
show is the one from before the action.

Key definitions: `Conduct.Idle`, `Player.OnlyLooks`, `Backed`, `Accounted`, `World.Accounts`.
Key theorems: `View.assume_backs`, `Stays.noted_accounts`,
`Player.commands_are_backed`.
-/

namespace TunnelView

variable {τ σ : Type}

/-- Conduct without operations. -/
def Conduct.Idle : Conduct τ σ → Prop
  | .back _ => True
  | .books _ _ next => next.Idle
  | .runs _ _ => False

/-- Code outside that calls nothing when it is shown a status. -/
def Player.OnlyLooks (player : Player τ σ) : Prop := ∀ s w, (player (.shown s) w).Idle

/-- A call that shows a status to such code: only its books change, and the diary. -/
def Outside.OnlyLooks (out : Outside τ (Chronicled τ σ)) : Prop :=
  ∀ s w, ∃ outcome memory events, out.present s w = (outcome,
    { w.enter (.calls (.shown s)) with
      rest.owner.memory.memory := memory, rest.events := events })

theorem Conduct.play_of_idle {conduct : Conduct τ σ} (h : conduct.Idle)
    (run : Op τ → Run τ (Chronicled τ σ) Reply) (w : World τ (Chronicled τ σ)) :
    ∃ outcome memory events, conduct.play run w =
      (outcome, { w with rest.owner.memory.memory := memory, rest.events := events }) := by
  induction conduct generalizing w with
  | back outcome => exact ⟨outcome, w.rest.owner.memory.memory, w.rest.events, rfl⟩
  | books memory events next ih =>
    obtain ⟨outcome, memory', events', hplay⟩ := ih h
      { w with rest.owner.memory.memory := memory, rest.events := events }
    exact ⟨outcome, memory', events', hplay⟩
  | runs op next _ => exact h.elim

/-- What backs a command at the moment at which it is sent, where `action` tells of the beginning of
the user action and `showing` of what it showed. -/
structure Backed [Zero τ] [Add τ] [LT τ] [DecidableLT τ] (c : Command)
    (sending showing action : Entry τ) : Prop where
  begun : action.moment = .begins (.command c)
  shown : showing.moment = .calls (.shown c.assumption.status)
  status : sending.view.status = c.assumption.status
  /-- What was on show before the action is kept, -/
  fallback : sending.view.fallback = some action.view.status
  /-- and the alarm is set. -/
  timer : ∃ t ∈ sending.clock.timers, sending.view.timeout.armed = some t.serial ∧
    t.call = .giveUp ∧ t.deadline = action.clock.now + delayed action.view.delays.patience

section Accounts

variable [Zero τ] [Add τ] [LT τ] [DecidableLT τ]

/-- A command that is sent is backed, unless the view is closed; then nothing was shown. -/
def Accounted (c : Command) (e : Entry τ) (earlier : List (Entry τ)) : Prop :=
  (e.view.closed = false → ∃ shown begun rest, earlier = shown :: begun :: rest ∧
      Backed c e shown begun) ∧
    (e.view.closed → ∃ begun rest, earlier = begun :: rest ∧ begun.moment = .begins (.command c) ∧
      e.view.status = begun.view.status)

/-- Every command that the diary tells of is accounted for. -/
def World.Accounts (w : World τ (Chronicled τ σ)) : Prop :=
  ∀ later e earlier c, w.diary = later ++ e :: earlier → e.moment = .calls (.sent c) →
    Accounted c e earlier

namespace World.Accounts

variable {w w' : World τ (Chronicled τ σ)}

theorem start (delays : Delays τ) (now : τ) (client : Client σ) :
    (Session.start delays now client.chronicled).Accounts := by
  intro later e earlier c hdiary
  have hempty : [] = later ++ e :: earlier := hdiary
  simp at hempty

theorem of_diary (h : w.Accounts) (hdiary : w'.diary = w.diary) : w'.Accounts := by
  intro later e earlier c hsplit
  rw [hdiary] at hsplit
  exact h later e earlier c hsplit

theorem enter (h : w.Accounts) {m : Moment τ}
    (hm : ∀ c, m = .calls (.sent c) → Accounted c ⟨m, w.rest.view, w.clock⟩ w.diary) :
    (w.enter m).Accounts := by
  intro later e earlier c hsplit he
  rw [World.diary_enter] at hsplit
  rcases later with _ | ⟨x, later⟩
  · obtain ⟨rfl, rfl⟩ := List.cons.inj hsplit
    exact hm c he
  · exact h later e earlier c (List.cons.inj hsplit).2 he

end World.Accounts
end Accounts

section Assumptions

variable [Zero τ] [Add τ] [LT τ] [DecidableLT τ] [LE τ] [DecidableLE τ]

variable {out : Outside τ (Chronicled τ σ)} {w : World τ (Chronicled τ σ)}

/-- An assumption that is made on an open view and comes back with a value has shown its status,
kept what was on show before, and set its alarm. -/
theorem View.assume_backs {c : Command} (hlooks : out.OnlyLooks)
    (hopen : w.rest.view.closed = false) {w₁ : World τ (Chronicled τ σ)}
    (hrun : View.assume out c.assumption w = (.ok (), w₁)) :
    w₁.rest.view.closed = false ∧ ∃ shown, w₁.diary = shown :: w.diary ∧
      Backed c ⟨.calls (.sent c), w₁.rest.view, w₁.clock⟩ shown
        ⟨.begins (.command c), w.rest.view, w.clock⟩ := by
  have hreturns : Returns (View.assume out c.assumption w).1 := by
    rw [hrun]
    trivial
  obtain ⟨-, back, hcommit, events, hassume⟩ := View.assume_of_open hopen hreturns
  obtain rfl : w₁ = _ := (congrArg Prod.snd hrun).symm.trans hassume
  let kept : World τ (Chronicled τ σ) := { w with rest.view.fallback := some w.rest.view.status }
  have hcommitted : Returns (View.commit out c.assumption.status kept).1 := by
    rw [hcommit]
    trivial
  obtain ⟨-, -, events', hback⟩ := View.commit_of_returns hcommitted
  obtain ⟨outcome, memory, events'', hpresent⟩ := hlooks c.assumption.status _
  rw [hpresent] at hback
  obtain rfl : back = _ := (congrArg Prod.snd hcommit).symm.trans hback
  have htimer := Slot.schedule_armed w.rest.view.delays.patience .giveUp w.rest.view.timeout w.clock
  exact ⟨hopen, _, rfl, rfl, rfl, rfl, rfl, htimer⟩

/-! ### Sessions -/

/-- The diary tells of no command that is not accounted for, whatever a view does. -/
theorem World.accounts_steady (hlooks : out.OnlyLooks) : Steady out World.Accounts where
  step h hstep := by
    cases hstep with
    | shows s _ _ =>
      obtain ⟨outcome, memory, events, hpresent⟩ := hlooks s _
      rw [hpresent]
      exact (h.enter (m := .calls (.shown s)) nofun).of_diary rfl
    | _ => exact h.of_diary rfl
  link _ h := h.of_diary rfl

/-- At the moment at which a user action sends its command, the command is accounted for. -/
theorem World.Accounts.sending {c : Command} (hlooks : out.OnlyLooks) (h : w.Accounts)
    {w₁ : World τ (Chronicled τ σ)}
    (hrun : View.assume out c.assumption (w.enter (.begins (.command c))) = (.ok (), w₁)) :
    (w₁.enter (.calls (.sent c))).Accounts := by
  let begun := w.enter (.begins (.command c))
  have hbegun : begun.Accounts := h.enter nofun
  have hassumed : (View.assume out c.assumption begun).2.Accounts :=
    (World.accounts_steady hlooks).path hbegun (.assume _ _)
  rw [hrun] at hassumed
  refine hassumed.enter fun c' hc' => ?_
  obtain rfl : c = c' := by
    injection hc' with hcall
    injection hcall
  cases hclosed : begun.rest.view.closed with
  | true =>
    rw [View.assume_of_closed hclosed] at hrun
    obtain rfl : _ = w₁ := congrArg Prod.snd hrun
    refine ⟨fun hopen => ?_, fun _ => ⟨_, w.diary, rfl, rfl, rfl⟩⟩
    exact absurd (hclosed.symm.trans hopen) Bool.true_eq_false.mp
  | false =>
    obtain ⟨hopen, shown, hdiary, hbacked⟩ := View.assume_backs hlooks hclosed hrun
    refine ⟨fun _ => ⟨shown, _, w.diary, hdiary, hbacked⟩, fun hshut => ?_⟩
    exact absurd (hshut.symm.trans hopen) Bool.true_eq_false.mp

variable [Sub τ]

/-- An operation is noted with its commands accounted for, if those to whom they are sent keep the
diary so. -/
theorem Stays.noted_accounts (hlooks : out.OnlyLooks)
    (hsent : ∀ c {w}, (w.enter (.calls (.sent c))).Accounts → (out.send c w).2.Accounts) (fuel : ℕ)
    (op : Op τ) : Stays World.Accounts (TunnelView.noted (Op.run out fuel) op) := by
  have hsteady := World.accounts_steady hlooks
  intro w h
  have hbegun : (w.enter (.begins op)).Accounts := h.enter nofun
  refine World.Accounts.enter (w := (op.run out fuel (w.enter (.begins op))).2) ?_ nofun
  by_cases hop : ∃ c, op = .command c
  · obtain ⟨c, rfl⟩ := hop
    cases hl : (w.enter (.begins (.command c))).rest.owner.link with
    | none =>
      rw [Op.run_command_alone hl]
      exact hbegun
    | some l =>
      rw [Op.run_command hl]
      split
      · have hassumed := hsteady.path hbegun (.assume c.assumption _)
        refine Stays.bind_at hassumed fun _ w₁ hrun _ => ?_
        have hsend := hsent c (h.sending hlooks hrun)
        exact Stays.bind_at (Stays.send hsend) fun _ _ _ h => h
      · exact hbegun.of_diary rfl
  · exact hsteady.op fuel (fun c hc => hop ⟨c, hc⟩) _ hbegun

omit [Zero τ] [Add τ] [Sub τ] [LT τ] [DecidableLT τ] [LE τ] [DecidableLE τ] in
theorem Player.OnlyLooks.answer {player : Player τ σ} (h : player.OnlyLooks)
    (run : Op τ → Run τ (Chronicled τ σ) Reply) (send : Command → Run τ (Chronicled τ σ) Unit) :
    Outside.OnlyLooks ⟨fun s => player.answer run (.shown s), send⟩ :=
  fun s w => Conduct.play_of_idle (h s _) run (w.enter (.calls (.shown s)))

theorem Player.OnlyLooks.outside {player : Player τ σ} (h : player.OnlyLooks) (n : ℕ) :
    (player.outside n).OnlyLooks := by
  cases n with
  | zero =>
    let exhausted : Player τ σ := fun _ _ => .back (.error .exhausted)
    have hexhausted : exhausted.OnlyLooks := fun _ _ => trivial
    exact hexhausted.answer _ _
  | succ n => exact h.answer _ _

/-- Whoever a command is sent to keeps the diary so, by induction on the depth of calls inside
calls. -/
theorem Player.OnlyLooks.sent {player : Player τ σ} (h : player.OnlyLooks) (n : ℕ) :
    ∀ c {w}, (w.enter (.calls (.sent c))).Accounts → ((player.outside n).send c w).2.Accounts := by
  induction n with
  | zero => exact fun c _ hw => hw
  | succ n ih =>
    intro c w hw
    exact Stays.play (fun _ _ hw => hw.of_diary rfl)
      (fun op => .noted_accounts (h.outside n) ih n op) _ _ hw

/-- **Every command is backed by an assumption**, under any policy and whatever is done by whoever
commands are sent to, as long as whoever is shown statuses calls nothing. On a closed view, which
assumes nothing, a command is sent on the status from before the action. -/
theorem Player.commands_are_backed {player : Player τ σ} (hlooks : player.OnlyLooks) (fuel : ℕ)
    (ops : List (Op τ)) (delays : Delays τ) (now : τ) (client : Client σ)
    {later earlier : List (Entry τ)} {e : Entry τ} {c : Command}
    (hdiary : (player.session fuel ops (Session.start delays now client.chronicled)).diary =
      later ++ e :: earlier) (he : e.moment = .calls (.sent c)) : Accounted c e earlier := by
  have hnoted : ∀ op, Stays World.Accounts (noted (Op.run (player.outside fuel) fuel) op) :=
    .noted_accounts (hlooks.outside fuel) (hlooks.sent fuel) fuel
  exact Player.session_stays hnoted (.start delays now client) later e earlier c hdiary he

end Assumptions

/-- Whoever is shown statuses fails each time, and on the first command the user disconnects at
once: the second command is sent from inside of the first, and both are backed. -/
theorem Player.commands_are_backed_nested :
    let player : Player ℤ Unit
      | .shown _, _ => .back (.error (.failure (.foreign "OSError" "")))
      | .sent .connect, _ => .runs (.command .disconnect) fun _ _ => .back (.ok ())
      | .sent _, _ => .back (.ok ())
    let client : Client Unit := { link := some { loggedIn := .bool true }, memory := () }
    let w := player.session 9 [.command .connect] (Session.start ⟨150, 3000⟩ 0 client.chronicled)
    player.OnlyLooks ∧ ∃ later e earlier, w.diary = later ++ e :: earlier ∧ later.length = 2 ∧
      e.moment = .calls (.sent .disconnect) ∧ e.view.closed = false ∧
      Accounted .disconnect e earlier := by
  refine ⟨fun _ _ => trivial, _, _, _, World.diary_split (n := 2) (by decide), rfl, rfl, rfl, ?_⟩
  refine Player.commands_are_backed ?_ 9 _ _ _ _ (World.diary_split (n := 2) (by decide)) rfl
  exact fun _ _ => trivial

/-- A user who connects after the client was closed has the command sent, with nothing assumed:
the status on show is that the tunnel is down, and no alarm is set. -/
theorem Player.command_unbacked_when_closed :
    let player : Player ℤ Unit := fun _ _ => .back (.ok ())
    let client : Client Unit := { link := some { loggedIn := .bool true }, memory := () }
    let w := player.session 9 [.close, .command .connect]
      (Session.start ⟨150, 3000⟩ 0 client.chronicled)
    player.OnlyLooks ∧ ∃ later e earlier, w.diary = later ++ e :: earlier ∧
      e.moment = .calls (.sent .connect) ∧ e.view.status = .bare .disconnected ∧
      e.view.fallback = none ∧ e.clock.timers = [] ∧
      ¬∃ showing action rest, earlier = showing :: action :: rest ∧
        Backed .connect e showing action := by
  refine ⟨fun _ _ => trivial, _, _, _, World.diary_split (n := 1) (by decide), rfl, rfl, rfl, rfl,
    ?_⟩
  rintro ⟨showing, action, rest, -, hbacked⟩
  have hstatus : Status.bare .disconnected = Status.bare .connecting := hbacked.status
  exact Condition.noConfusion (congrArg Status.condition hstatus)

end TunnelView
