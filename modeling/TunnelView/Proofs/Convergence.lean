import Mathlib.Tactic.Tauto
import TunnelView.Proofs.Watch.Session

/-!
# The last report is what is shown in the end

A report that comes in takes one of five ways: it is shown at once, put off, it confirms an
assumption, becomes the fallback of one, or stands behind an assumption of its own. On each of them
it is owed: it is what is put off or, with nothing put off, what is shown once no assumption is.
Nothing but another report, an assumption, or a drop changes what is owed, and while a report is put
off not even these two do. When nothing is pending any more, what is owed is on show.

Key definitions: `Watch.Owes`, `Op.intervenes`.
Key theorems: `Watch.Owes.ring`, `Watch.Owes.runOp`, `Session.shows_last_report`.
-/

namespace TunnelView

variable {τ σ : Type}

/-- The status of the report that an operation hands to the view, if it can be read. -/
def Op.reported? : Op τ → Option Status
  | .notify r => r.read.toOption
  | _ => none

/-- Whether an operation makes or drops an assumption. -/
def Op.intervenes : Op τ → Bool
  | .expect kind => (Assumption.ofValue? kind).isSome
  | .reset => true
  | _ => false

/-! ### What is owed -/

section Owed

namespace Watch

/-- A report is owed if it is put off or, with nothing put off, if it is what is shown once no
assumption is. -/
def Owes (s : Status) (m : Watch τ) : Prop :=
  m.closed = false ∧
    ((∃ t, m.deferred = some (s, t)) ∨ m.deferred = none ∧ m.fallback.getD m.status = s)

variable [AddCommGroup τ] [LinearOrder τ] {d : Delays τ} {m : Watch τ} {s : Status} {t : τ}

omit [LinearOrder τ] in
theorem Owes.reveal (hc : m.closed = false) (hd : m.deferred = none) (hf : m.fallback = none)
    (s : Status) : Owes s (m.reveal d s) := by
  unfold Watch.reveal
  split
  · -- a reconnect is not shown, but it is behind the assumption that it makes
    refine ⟨(assume_closed d .connecting m).trans hc, .inr ⟨?_, rfl⟩⟩
    rw [Watch.assume, hc]
    exact hd
  · have hs : (Watch.commit s m).fallback.getD s = s := by rw [Watch.commit, hf]; rfl
    exact ⟨hc, .inr ⟨hd, hs⟩⟩

omit [LinearOrder τ] in
theorem Owes.act (hc : m.closed = false) (hd : m.deferred = none) (s : Status) :
    Owes s (m.act d s) := by
  unfold Watch.act
  split
  · rename_i hf
    exact .reveal hc hd (Option.isNone_iff_eq_none.mp hf) s
  · split
    · exact Owes.reveal (m := m.drop) hc hd rfl s
    · exact ⟨hc, .inr ⟨hd, rfl⟩⟩

omit [LinearOrder τ] in
/-- A report that passes the quiet window is shown, or is behind the assumption on show. -/
theorem Owes.pass (hc : m.closed = false) (s : Status) : Owes s (m.pass d s) :=
  Owes.act (m := { m with deferred := none, lastActed := m.now }) hc rfl s

theorem Owes.receive (hc : m.closed = false) (s : Status) : Owes s (m.receive d s) := by
  unfold Watch.receive
  rw [hc]
  split
  · contradiction
  · split
    · exact ⟨hc, .inl ⟨_, rfl⟩⟩
    · exact .pass hc s

omit [AddCommGroup τ] in
theorem Owes.wait (h : Owes s m) (t : τ) : Owes s (m.wait t) := h

omit [LinearOrder τ] in
/-- While it is put off, a report is owed whatever becomes of an assumption. -/
theorem Owes.assume (h : Owes s m) (hd : m.deferred.isSome) (a : Assumption) :
    Owes s (m.assume d a) := by
  obtain ⟨hc, ⟨t, ht⟩ | ⟨hn, -⟩⟩ := h
  · refine ⟨by rw [assume_closed, hc], .inl ⟨t, ?_⟩⟩
    rw [Watch.assume, hc]
    exact ht
  · simp [hn] at hd

omit [AddCommGroup τ] [LinearOrder τ] in
theorem Owes.drop (h : Owes s m) (hd : m.deferred.isSome) : Owes s m.drop := by
  obtain ⟨hc, ⟨t, ht⟩ | ⟨hn, -⟩⟩ := h
  · exact ⟨hc, .inl ⟨t, ht⟩⟩
  · simp [hn] at hd

omit [AddCommGroup τ] [LinearOrder τ] in
theorem Owes.giveUp (h : Owes s m) : Owes s m.giveUp := by
  unfold Watch.giveUp
  cases hf : m.fallback with
  | none => exact h
  | some f =>
    obtain ⟨hc, hd | ⟨hn, hs⟩⟩ := h
    · exact ⟨hc, .inl hd⟩
    · rw [hf] at hs
      exact ⟨hc, .inr ⟨hn, hs⟩⟩

/-- No deadline changes what is owed: a report that was put off passes, and a fallback is shown. -/
theorem Owes.ring {b : Bell} (h : Owes s m) (hn : m.next? = some (t, b)) :
    Owes s (m.ring d t b) := by
  cases b with
  | report s' =>
    obtain ⟨hc, ⟨u, hu⟩ | ⟨hd, -⟩⟩ := h
    · rw [deferred_of_next? hn] at hu
      obtain ⟨rfl, rfl⟩ := Prod.mk.inj (Option.some.inj hu)
      exact Owes.pass (m := m.wait t) hc s'
    · rw [deferred_of_next? hn] at hd
      contradiction
  | giveUp => exact Owes.giveUp (m := { m.wait t with deadline := none }) h

theorem Owes.lasting (s : Status) : Lasting d (Owes s : Watch τ → Prop) :=
  ⟨fun h hn => h.ring hn, fun h _ => h.wait _⟩

theorem Owes.runOp (h : Owes s m) {op : Op τ} (hc : op.closes = false) (hr : op.reported? = none)
    (hi : op.intervenes → m.deferred.isSome) : Owes s (m.runOp d op).2 := by
  cases op with
  | notify r =>
    rw [Watch.runOp]
    cases hs : r.read with
    | error fault => exact h
    | ok s => simp [Op.reported?, hs, Except.toOption] at hr
  | expect kind =>
    rw [Watch.runOp]
    cases ha : Assumption.ofValue? kind with
    | none => exact h
    | some a => exact h.assume (hi (by simp [Op.intervenes, ha])) a
  | reset => exact h.drop (hi rfl)
  | close => contradiction
  | closeView => contradiction
  | advance delta => exact (lasting s).runOp h rfl
  | advanceTo time => exact (lasting s).runOp h rfl
  | idle most => exact (lasting s).runOp h rfl
  | _ => exact h

theorem Owes.after (h : Owes s m) {ops : List (Op τ)}
    (hops : ∀ op ∈ ops, op.closes = false ∧ op.reported? = none)
    (hi : ∀ mid op rest, ops = mid ++ op :: rest → op.intervenes →
      (m.after d mid).deferred.isSome) : Owes s (m.after d ops) := by
  induction ops generalizing m with
  | nil => exact h
  | cons op ops ih =>
    obtain ⟨hc, hr⟩ := hops op (by simp)
    have h₁ : Owes s (m.runOp d op).2 := h.runOp hc hr (hi [] op ops rfl)
    refine ih h₁ (fun op hop => hops op (by simp [hop])) fun mid op' rest he => ?_
    exact hi (op :: mid) op' rest (by simp [he])

theorem runOp_closed {op : Op τ} (hc : op.closes = false) :
    (m.runOp d op).2.closed = m.closed := by
  cases op <;> simp only [Watch.runOp]
  case notify r => cases r.read <;> simp
  case expect kind => cases Assumption.ofValue? kind <;> simp
  case reset => rfl
  case close => contradiction
  case closeView => contradiction
  case advance delta => split <;> simp [Watch.advanceTo, Watch.wait]
  case advanceTo time => simp [Watch.advanceTo, Watch.wait]
  case idle most => simp

theorem after_closed {ops : List (Op τ)} (hops : ∀ op ∈ ops, op.closes = false) :
    (m.after d ops).closed = m.closed := by
  induction ops generalizing m with
  | nil => rfl
  | cons op ops ih =>
    have h₁ : (m.runOp d op).2.closed = m.closed := runOp_closed (hops op (by simp))
    rw [← h₁]
    exact ih fun op hop => hops op (by simp [hop])

omit [AddCommGroup τ] in
/-- When nothing is pending any more and nothing is assumed, what is owed is on show. -/
theorem Owes.status_eq (h : Owes s m) (hn : m.next? = none) (hf : m.fallback = none) :
    m.status = s := by
  obtain ⟨-, ⟨t, ht⟩ | ⟨-, hs⟩⟩ := h
  · rw [(next?_eq_none_iff.mp hn).1] at ht
    contradiction
  · rwa [hf] at hs

theorem Owes.of_idle (h : Owes s m) (hm : m.Sound d) (hn : m.next? = none) :
    m.status = s ∧ m.fallback = none := by
  have hf : m.fallback = none := by simpa [(next?_eq_none_iff.mp hn).2] using hm.timed
  exact ⟨h.status_eq hn hf, hf⟩

end Watch
end Owed

/-! ### Sessions -/

section Sessions

variable [AddCommGroup τ] [LinearOrder τ] [IsOrderedAddMonoid τ] {d : Delays τ} {host : Host τ σ}

/-- After its last report, and with no assumption made or dropped since that report passed the quiet
window, the watch of a session owes the report. -/
theorem Session.owes_last_report (hhost : host.LooksOn) (hw : 0 < d.window) (hp : 0 < d.patience)
    {fuel : ℕ} (hf : 4 ≤ fuel) {client : Client σ} (hc : client.Undisturbed) (now : τ)
    {before after : List (Op τ)} {r : Report} {s : Status} (hr : r.read = .ok s)
    (hops : ∀ op ∈ before ++ .notify r :: after, op.onView ∧ op.closes = false)
    (hlast : ∀ op ∈ after, op.reported? = none)
    (huser : ∀ mid op rest, after = mid ++ op :: rest → op.intervenes →
      (Session.after host fuel (before ++ .notify r :: mid)
        (Session.start d now client)).rest.view.deferring) :
    ((Watch.start now).after d (before ++ .notify r :: after)).Owes s := by
  have hopen : ((Watch.start now).after d before).closed = false :=
    Watch.after_closed fun op hop => (hops op (by simp [hop])).2
  have h₁ : (((Watch.start now).after d before).runOp d (.notify r)).2.Owes s := by
    simp only [Watch.runOp, hr]
    exact .receive hopen s
  rw [Watch.after_append]
  refine h₁.after (fun op hop => ⟨(hops op (by simp [hop])).2, hlast op hop⟩) ?_
  intro mid op rest he hi
  have hmid : ∀ op ∈ before ++ .notify r :: mid, op.onView := fun op hop => by
    refine (hops op ?_).1
    rw [he]
    simp only [List.mem_append, List.mem_cons] at hop ⊢
    tauto
  have hm := (Matches.start client hc now).after (.start now) hhost hw hp hf hmid
  have hd := huser mid op rest he hi
  rw [hm.deferring, Watch.after_append] at hd
  exact hd

/-- **The last report is what is shown in the end.** Whatever came before a report and whatever time
has passed since, running until idle takes at most three firings and leaves the report on show, with
no fallback and nothing pending, unless there was another report, or an assumption was made or
dropped after this one passed the quiet window. -/
theorem Session.shows_last_report (hhost : host.LooksOn) (hw : 0 < d.window) (hp : 0 < d.patience)
    {fuel : ℕ} (hf : 4 ≤ fuel) {client : Client σ} (hc : client.Undisturbed) (now : τ)
    {before after : List (Op τ)} {r : Report} {s : Status} (hr : r.read = .ok s)
    (hops : ∀ op ∈ before ++ .notify r :: after, op.onView ∧ op.closes = false)
    (hlast : ∀ op ∈ after, op.reported? = none)
    (huser : ∀ mid op rest, after = mid ++ op :: rest → op.intervenes →
      (Session.after host fuel (before ++ .notify r :: mid)
        (Session.start d now client)).rest.view.deferring)
    {most : ℤ} (hmost : 4 ≤ most) :
    let out := outside host fuel
    let w := Session.after host fuel (before ++ .notify r :: after) (Session.start d now client)
    let r := (Op.idle most).run out fuel w
    Timed.firings (View.fire out) none most.toNat w ≤ 3 ∧ r.1 = .ok .nothing ∧
      r.2.rest.view.status = s ∧ r.2.rest.view.fallback = none ∧
      r.2.rest.view.timing = false ∧ r.2.rest.view.deferring = false ∧ r.2.clock.pending = 0 := by
  intro out w r'
  let m := (Watch.start now).after d (before ++ .notify r :: after)
  have hm : m.Sound d := Watch.Sound.after (.start now) hw hp _
  have hmw : Matches Client.Undisturbed d w m :=
    (Matches.start client hc now).after (.start now) hhost hw hp hf fun op hop => (hops op hop).1
  have howes : m.Owes s := Session.owes_last_report hhost hw hp hf hc now hr hops hlast huser
  obtain ⟨n, rfl⟩ : ∃ n, fuel = n + 1 := ⟨fuel - 1, by omega⟩
  have hfirings : Timed.firings (View.fire out) none most.toNat w ≤ m.weight :=
    hmw.firings_le (outside_looksOn hhost n) hw hp hm.ripe
  obtain ⟨houtcome, hend⟩ := hmw.runOp hm.ripe hhost hw hp hf (show (Op.idle most).onView from rfl)
  rw [Watch.runOp_idle hmost] at houtcome hend
  have hnext : (m.drain d none).next? = none := Watch.next?_drain m
  obtain ⟨hd, hu⟩ := Watch.next?_eq_none_iff.mp hnext
  have howes : (m.drain d none).Owes s := (Watch.Owes.lasting s).drain howes none
  obtain ⟨hs, hfb⟩ := howes.of_idle ((Watch.Sound.lasting hp).drain hm none) hnext
  refine ⟨hfirings.trans m.weight_le, houtcome, hend.status.trans hs, hend.fallback.trans hfb, ?_⟩
  refine ⟨by rw [hend.timing, hu]; rfl, by rw [hend.deferring, hd]; rfl, ?_⟩
  rw [hend.pending, hd, hu]
  rfl

end Sessions

/-- A report that is put off behind an assumption, with another assumption made before it passes. -/
theorem Session.shows_last_report_behind_assumption :
    let before : List (Op ℤ) := [.advance 200, .expect (.text "connecting"),
      .notify (.ready (.bare .connected)), .reset]
    let s : Status := .bare (.disconnecting .reconnect)
    let after : List (Op ℤ) := [.expect (.text "disconnecting"), .advance 1000]
    let w := Session.after Replay.silent 5 (before ++ .notify (.ready s) :: after)
      (Session.start ⟨150, 3000⟩ 0 { memory := () })
    ((Op.idle 10000).run (outside Replay.silent 5) 5 w).2.rest.view.status = s := by
  intro before s after w
  have hops : ∀ op ∈ before ++ .notify (.ready s) :: after, op.onView ∧ op.closes = false := by
    simp [before, after, Op.onView, Op.closes]
  have hlast : ∀ op ∈ after, op.reported? = none := by simp [after, Op.reported?]
  have huser : ∀ mid op rest, after = mid ++ op :: rest → op.intervenes →
      (Session.after Replay.silent 5 (before ++ .notify (.ready s) :: mid)
        (Session.start ⟨150, 3000⟩ 0 { memory := () })).rest.view.deferring := by
    intro mid op rest he hi
    rcases mid with _ | ⟨a, mid⟩
    · rfl
    · have hop : op ∈ [Op.advance (1000 : ℤ)] := by
        rw [(List.cons.inj he).2]
        simp
      rw [List.mem_singleton.mp hop] at hi
      contradiction
  have hs := (Session.shows_last_report (d := ⟨150, 3000⟩) Replay.silent_looksOn (by decide)
    (by decide) (by decide) (Client.undisturbed_alone ()) 0 rfl hops hlast huser
    (show (4 : ℤ) ≤ 10000 by decide)).2.2.1
  -- the two sides find the order of the integers in different places
  with_reducible_and_instances exact hs

end TunnelView
