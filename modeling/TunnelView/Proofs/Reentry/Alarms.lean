import TunnelView.Proofs.Reentry.Calls

/-!
# Alarms and code outside that calls back

Whatever those do who are shown statuses, an assumption on show is never stuck: unless the view was
closed, a fallback that is kept has its alarm on the clock whenever no call is in progress. While
one is, this may fail: the fallback is kept before the assumption is shown, and the alarm is set
after. But it is set without regard to what was done in between.

For the same reason a view that is closed by someone who is shown an assumption is left with the
alarm that is set afterwards (`Session.alarm_left_when_closed`), and one that is closed by someone
who is shown a reconnect as an assumption keeps its fallback. A view that is closed at any other
point lets go of everything.

Key definitions: `World.Backed`, `World.Released`, `Outside.Spares`, `Host.closingOn`.
Key theorems: `Session.never_stuck`, `Session.deferral_released`, `Session.released_when_closed`.
-/

namespace TunnelView

variable {τ ο σ : Type}

/-- On an open view, a fallback is kept only together with an alarm. -/
def World.Backed (w : World τ ο) : Prop :=
  w.rest.view.closed = false → w.rest.view.fallback ≠ none → w.rest.view.timing

/-- A view that is closed has nothing left to act on. -/
def World.Released (w : World τ ο) : Prop :=
  w.rest.view.closed → w.rest.view.fallback = none ∧ w.rest.view.deferring = false ∧
    w.rest.view.timing = false

/-- A view that is closed puts no report off. -/
def World.Undeferred (w : World τ ο) : Prop := w.rest.view.closed → w.rest.view.deferring = false

/-- Whoever is shown an assumption leaves an open view open. -/
def Outside.Spares (out : Outside τ ο) : Prop :=
  ∀ (a : Assumption) w, w.rest.view.closed = false → Returns (out.present a.status w).1 →
    (out.present a.status w).2.rest.view.closed = false

/-- If whoever is shown an assumption leaves the view open, it is open afterwards. -/
theorem Outside.Spares.commit {out : Outside τ ο} (hspares : out.Spares) {a : Assumption}
    {w back : World τ ο} (hback : View.commit out a.status w = (.ok (), back))
    (hc : w.rest.view.closed = false) : back.rest.view.closed = false := by
  have hr : Returns (View.commit out a.status w).1 := by
    rw [hback]
    trivial
  obtain ⟨-, hpresent, events, he⟩ := View.commit_of_returns hr
  rw [hback] at he
  subst he
  exact hspares a _ hc hpresent

section Invariants

variable [Zero τ] [Add τ] [LT τ] [DecidableLT τ] [LE τ] [DecidableLE τ]

theorem View.close_released {w : World τ ο} (hc : w.rest.view.closed = false) :
    (View.close w).2.Released := by
  rw [View.close_of_open hc]
  exact fun _ => ⟨rfl, rfl, rfl⟩

/-- An assumption that is made leaves its alarm set, whatever was done by whoever was shown it. -/
theorem View.timing_of_assume {out : Outside τ ο} {w : World τ ο} {a : Assumption}
    (hc : w.rest.view.closed = false) (h : Returns (View.assume out a w).1) :
    (View.assume out a w).2.rest.view.timing := by
  obtain ⟨-, back, -, events, he⟩ := View.assume_of_open hc h
  rw [he]
  rfl

theorem World.upheld_backed : Upheld (fun _ => True) (World.Backed : World τ ο → Prop) where
  aside _ _ h := h
  status _ h := h
  acted _ h := h
  moveTo _ h := h
  tidied h := h
  missed h _ _ := h
  recalled h _ _ _ := h
  lapsed {w} _ _ _ _ _ _ _ := by
    intro hopen hf
    have hnone : (if w.rest.view.closed then w.rest.view.fallback else none) = none :=
      if_neg (by simp [show w.rest.view.closed = false from hopen])
    exact absurd hnone hf
  resetFallback _ _ hf := absurd rfl hf
  close {w} h := by
    cases hc : w.rest.view.closed with
    | true => rwa [View.close_of_closed hc]
    | false =>
      rw [View.close_of_open hc]
      exact fun hopen => nomatch hopen
  putOff _ _ h _ := h
  stored _ h hc hf := fun _ _ => h hc hf
  assumed a _ _ _ hc hr :=
    ⟨fun _ _ => View.timing_of_assume hc hr, fun _ _ _ => View.timing_of_assume hc hr⟩

theorem World.upheld_undeferred :
    Upheld (fun _ => True) (World.Undeferred : World τ ο → Prop) where
  aside _ _ h := h
  status _ h := h
  acted _ h := h
  moveTo _ h := h
  tidied h := h
  missed h _ _ := h
  recalled _ _ _ _ _ := rfl
  lapsed h _ _ _ := h
  resetFallback h := h
  close {w} h := by
    cases hc : w.rest.view.closed with
    | true => rwa [View.close_of_closed hc]
    | false => exact fun hclosed => (View.close_released hc hclosed).2.1
  putOff _ _ _ hc := fun hclosed => absurd (hc.symm.trans hclosed) Bool.false_ne_true
  stored _ h _ _ := h
  assumed {out w} a _ hp h hc hr := by
    obtain ⟨-, back, hback, events, he⟩ := View.assume_of_open hc hr
    have hkeeps := Keeps.commit (fun _ _ h => h) hp a.status
    have hshown : back.Undeferred := hkeeps.apply hback h
    rw [he]
    exact ⟨hshown, fun _ => hshown⟩

theorem World.upheld_released :
    Upheld Outside.Spares (World.Released : World τ ο → Prop) where
  aside _ _ h := h
  status _ h := h
  acted _ h := h
  moveTo _ h := h
  tidied h := h
  missed h _ _ := h
  recalled h _ _ _ := fun hclosed => ⟨(h hclosed).1, rfl, (h hclosed).2.2⟩
  lapsed {w} _ _ _ h _ _ _ := by
    intro hclosed
    have hkept : (if w.rest.view.closed then w.rest.view.fallback else none) = none :=
      (if_pos hclosed).trans (h hclosed).1
    exact ⟨hkept, (h hclosed).2.1, rfl⟩
  resetFallback h := fun hclosed => ⟨rfl, (h hclosed).2.1, rfl⟩
  close {w} h := by
    cases hc : w.rest.view.closed with
    | true => rwa [View.close_of_closed hc]
    | false => exact View.close_released hc
  putOff _ _ _ hc := fun hclosed => absurd (hc.symm.trans hclosed) Bool.false_ne_true
  stored _ _ hc _ := fun hclosed => absurd (hc.symm.trans hclosed) Bool.false_ne_true
  assumed {out w} a hspares _ _ hc hr := by
    obtain ⟨-, back, hback, events, he⟩ := View.assume_of_open hc hr
    have hopen : back.rest.view.closed = false := hspares.commit hback hc
    have hset : (View.assume out a w).2.rest.view.closed = false := by
      rw [he]
      exact hopen
    exact ⟨fun hclosed => absurd (hset.symm.trans hclosed) Bool.false_ne_true,
      fun _ hclosed => absurd (hset.symm.trans hclosed) Bool.false_ne_true⟩

end Invariants

/-! ### Hosts -/

/-- A host that closes the view whenever it is shown a phase. -/
def Host.closingOn (phase : Phase) : Host τ Unit
  | memory, .shown s => (memory, { ops := if s.phase = phase then [.closeView] else [] })
  | memory, .sent _ => (memory, {})

section Hosts

variable [Zero τ] [Add τ] [Sub τ] [LT τ] [DecidableLT τ] [LE τ] [DecidableLE τ] {host : Host τ σ}

/-- A host that does nothing when it is shown an assumption leaves open what is open. -/
theorem outside_spares (h : ∀ memory (a : Assumption), (host memory (.shown a.status)).2.ops = [])
    (n : ℕ) : (outside host n).Spares := by
  let isOpen : World τ (Client σ) → Prop := fun w => w.rest.view.closed = false
  intro a w hw hr
  cases n with
  | zero => exact absurd hr Bool.false_ne_true
  | succ n =>
    have hlose : Keeps isOpen Link.lose := fun _ hw _ => hw
    have htell : Keeps isOpen tellLink := by
      refine (Keeps.of_still fun _ => rfl).bind fun l? => ?_
      cases l? with
      | none => exact .pure ()
      | some l => exact Keeps.compositional.overhear (fun _ => .stop _) hlose l
    have hrespond : Keeps isOpen (respond host (Op.run (outside host n) n) (.shown a.status)) := by
      refine Keeps.bind (fun _ hw _ => hw) fun _ => Keeps.world fun w₁ => ?_
      refine Keeps.bind (fun _ hw _ => hw) fun _ => ?_
      rw [h]
      refine Keeps.bind (.pure ()) fun _ => ?_
      split
      · exact .pure ()
      · exact .stop _
    exact (htell.bind fun _ => hrespond) w hw hr

end Hosts

/-! ### Sessions -/

section Sessions

variable [Zero τ] [Add τ] [Sub τ] [LT τ] [DecidableLT τ] [LE τ] [DecidableLE τ]
  {out : Outside τ (Client σ)} {w : World τ (Client σ)}

/-- The slots of a view hold the calls on its clock whenever no call is in progress. -/
theorem Session.holds (hout : out.Reenters fun _ => True) (d : Delays τ) (now : τ)
    (client : Client σ) (fuel : ℕ)
    (h : (Session.start d now client).Reaches (Op.run out fuel) w) :
    w.rest.view.Holds w.clock :=
  View.upheld_holds.of_reaches hout h (.opened d now)

/-- **An assumption is never stuck.** Whatever is done by those who are shown statuses or sent
commands, whenever no call is in progress and the view was not closed, a fallback that is kept has
its alarm: the timeout slot is armed, with a call that is on the clock. (Hosts are such code:
`outside_reenters`.) -/
theorem Session.never_stuck (hout : out.Reenters fun _ => True) (d : Delays τ) (now : τ)
    (client : Client σ) (fuel : ℕ)
    (h : (Session.start d now client).Reaches (Op.run out fuel) w)
    (hopen : w.rest.view.closed = false) (hf : w.rest.view.fallback ≠ none) :
    w.rest.view.timing ∧
      ∃ t ∈ w.clock.timers, w.rest.view.timeout.armed = some t.serial ∧ t.call = .giveUp := by
  have hstart : (Session.start d now client).Backed := fun _ hf => absurd rfl hf
  have htiming : w.rest.view.timing := World.upheld_backed.of_reaches hout h hstart hopen hf
  obtain ⟨serial, hserial⟩ := Option.isSome_iff_exists.mp htiming
  obtain ⟨t, ht, rfl, hcall⟩ := (Session.holds hout d now client fuel h).exists_timer hserial
  exact ⟨htiming, t, ht, hserial, hcall⟩

/-- A host that, when it is first shown that a connection is being made, drops the assumption, makes
another and fails: the second one has its alarm. -/
theorem Session.never_stuck_nested :
    let reaction : Reaction ℤ := ⟨.shown (some .connecting), 1,
      [.reset, .expect (.text "disconnecting")], some (.failure (.foreign "RuntimeError" "no"))⟩
    let w := Session.after scripted 5 [.expect (.text "connecting")]
      (Session.start ⟨150, 3000⟩ 0 { memory := [reaction] })
    (w.rest.view.closed = false ∧ w.rest.view.fallback ≠ none) ∧ w.rest.view.timing ∧
      ∃ t ∈ w.clock.timers, w.rest.view.timeout.armed = some t.serial ∧ t.call = .giveUp := by
  intro reaction w
  have hreturn : (Session.start ⟨150, 3000⟩ 0 { memory := [reaction] }).AllReturn
      (Op.run (outside scripted 5) 5) [.expect (.text "connecting")] := by
    decide +kernel +revert
  have hview : w.rest.view.closed = false ∧ w.rest.view.fallback ≠ none := by
    clear hreturn
    decide +kernel +revert
  have hstuck := Session.never_stuck (outside_reenters (fun _ => trivial) 5) ⟨150, 3000⟩ 0
    { memory := [reaction] } 5 (Session.reaches_after hreturn) hview.1 hview.2
  exact ⟨hview, hstuck⟩

/-- Whoever closes a view, and from wherever, no report is put off any more, and at most the alarm
of an assumption is left on the clock. -/
theorem Session.deferral_released (hout : out.Reenters fun _ => True) (d : Delays τ) (now : τ)
    (client : Client σ) (fuel : ℕ)
    (h : (Session.start d now client).Reaches (Op.run out fuel) w) (hc : w.rest.view.closed) :
    w.rest.view.deferring = false ∧ w.clock.pending = w.rest.view.timing.toNat := by
  have hdeferring : w.rest.view.deferring = false :=
    World.upheld_undeferred.of_reaches hout h (fun _ => rfl) hc
  refine ⟨hdeferring, ?_⟩
  rw [(Session.holds hout d now client fuel h).pending, hdeferring]
  exact Nat.zero_add _

/-- **Closing releases everything**, whoever closes, if those who are shown an assumption leave an
open view open. -/
theorem Session.released_when_closed (hout : out.Reenters Outside.Spares) (d : Delays τ) (now : τ)
    (client : Client σ) (fuel : ℕ)
    (h : (Session.start d now client).Reaches (Op.run out fuel) w) (hc : w.rest.view.closed) :
    w.rest.view.fallback = none ∧ w.rest.view.deferring = false ∧ w.rest.view.timing = false ∧
      w.clock.pending = 0 := by
  have hstart : (Session.start d now client).Released := fun hclosed => nomatch hclosed
  obtain ⟨hf, hdeferring, htiming⟩ := World.upheld_released.of_reaches hout h hstart hc
  have hholds := Session.holds (hout.mono fun _ _ => trivial) d now client fuel h
  refine ⟨hf, hdeferring, htiming, ?_⟩
  rw [hholds.pending, hdeferring, htiming]
  rfl

/-- A host that closes the view when it is shown what an assumption gave way to, while a report is
put off. -/
theorem Session.released_when_closed_at_lapse :
    let ops : List (Op ℤ) := [.expect (.text "connecting"), .advance 2900,
      .notify (.ready (.bare .disconnected)), .advance 50, .notify (.ready (.bare .connected)),
      .advance 50]
    let w := Session.after (Host.closingOn .disconnected) 5 ops
      (Session.start ⟨150, 3000⟩ 0 { memory := () })
    w.rest.view.closed ∧ w.rest.view.fallback = none ∧ w.rest.view.deferring = false ∧
      w.rest.view.timing = false ∧ w.clock.pending = 0 := by
  intro ops w
  have hspares : ∀ n, (outside (τ := ℤ) (Host.closingOn .disconnected) n).Spares :=
    outside_spares fun memory a => by cases a <;> rfl
  have hreturn : (Session.start ⟨150, 3000⟩ 0 { memory := () }).AllReturn
      (Op.run (outside (Host.closingOn .disconnected) 5) 5) ops := by
    clear hspares
    decide +kernel +revert
  have hclosed : w.rest.view.closed := by
    clear hspares hreturn
    decide +kernel +revert
  exact ⟨hclosed, Session.released_when_closed (outside_reenters hspares 5) ⟨150, 3000⟩ 0
    { memory := () } 5 (Session.reaches_after hreturn) hclosed⟩

/-- A view that is closed when an assumption is shown is left with the alarm, and one that is closed
when a reconnect is shown as an assumption with its fallback, too. -/
theorem Session.alarm_left_when_closed :
    let host : Host ℤ Unit := Host.closingOn .connecting
    let w₀ := Session.start ⟨150, 3000⟩ 0 { memory := () }
    let user : List (Op ℤ) := [.expect (.text "connecting")]
    let service : List (Op ℤ) :=
      [.advance 200, .notify (.ready (.bare (.disconnecting .reconnect)))]
    (w₀.AllReturn (Op.run (outside host 5) 5) user ∧
      let w := Session.after host 5 user w₀
      w.rest.view.closed ∧ w.rest.view.fallback = none ∧ w.rest.view.timing ∧
        w.clock.pending = 1) ∧
    (w₀.AllReturn (Op.run (outside host 5) 5) service ∧
      let w := Session.after host 5 service w₀
      w.rest.view.closed ∧ w.rest.view.fallback ≠ none ∧ w.rest.view.timing ∧
        w.clock.pending = 1) := by
  decide +kernel

end Sessions
end TunnelView
