import Mathlib.Data.List.Induction
import TunnelView.Proofs.Watch.Session

/-!
# What holds between operations

Between operations a view, its two slots and its clock are in balance: there is a fallback just as
long as the timeout slot is filled, the status on show is then that of an assumption, each filled
slot has its one call on the clock and the clock holds no other, no call is overdue or further away
than its delay, and nothing is left of a view that is closed.

A call may be due just now only if the clock was last moved by a run until idle that its limit on
firings ended: going to a time leaves nothing due by it, and so does running until idle to its end.

Key definitions: `World.InBalance`, `Watch.Prompt`, `Op.reaches`, `Session.CutShort`.
Key theorems: `Watch.prompt_of_reaches`, `Matches.inBalance`, `Session.in_balance`.
-/

namespace TunnelView

variable {τ ο σ : Type}

/-! ### When a deadline is due just now -/

namespace Watch

variable {d : Delays τ} {m : Watch τ} {t : τ}

theorem giveUp_now (m : Watch τ) : m.giveUp.now = m.now := by
  unfold giveUp
  split <;> rfl

section

variable [AddCommGroup τ]

theorem assume_now (a : Assumption) (m : Watch τ) : (m.assume d a).now = m.now := by
  unfold assume
  split <;> rfl

theorem pass_now (s : Status) (m : Watch τ) : (m.pass d s).now = m.now := by
  unfold pass act reveal assume
  split_ifs <;> rfl

variable [LinearOrder τ]

theorem receive_now (s : Status) (m : Watch τ) : (m.receive d s).now = m.now := by
  unfold receive
  split_ifs
  · rfl
  · rfl
  · exact pass_now s m

theorem ring_now (t : τ) (b : Bell) (m : Watch τ) : (m.ring d t b).now = max m.now t := by
  cases b with
  | report s => exact pass_now s _
  | giveUp => exact giveUp_now _

/-- What is due by a time takes the clock no further. -/
theorem drain_now_le (h : m.now ≤ t) : (m.drain d (some t)).now ≤ t := by
  fun_induction Watch.drain d (some t) m with
  | case1 m _ => exact h
  | case2 m u b hd ih =>
    have hu : u ≤ t := (due?_eq_some_iff.mp hd).2 t rfl
    exact ih ((ring_now u b m).trans_le (max_le h hu))

end

variable [LinearOrder τ]

/-- No deadline is due yet. -/
structure Prompt (m : Watch τ) : Prop where
  deferred : ∀ s t, m.deferred = some (s, t) → m.now < t
  deadline : ∀ t, m.deadline = some t → m.now < t

theorem Prompt.start (now : τ) : Prompt (Watch.start now) := by
  constructor <;> simp [Watch.start]

theorem Prompt.of_next?_eq_none (h : m.next? = none) : m.Prompt := by
  obtain ⟨hd, hu⟩ := next?_eq_none_iff.mp h
  constructor <;> simp [hd, hu]

theorem Prompt.drop (h : m.Prompt) : m.drop.Prompt := ⟨h.deferred, fun _ hu => by contradiction⟩

theorem Prompt.close (m : Watch τ) : m.close.Prompt :=
  ⟨fun _ _ hs => by contradiction, fun _ hu => by contradiction⟩

variable [AddCommGroup τ]

theorem advanceTo_now (d : Delays τ) (h : m.now ≤ t) : (m.advanceTo d t).now = t :=
  max_eq_right (drain_now_le h)

/-- Going to a time that is not past leaves nothing due. -/
theorem Prompt.advanceTo (d : Delays τ) (h : m.now ≤ t) : (m.advanceTo d t).Prompt := by
  have hdue : (m.drain d (some t)).due? (some t) = none := due?_drain ..
  constructor
  · intro s u hs
    rw [advanceTo_now d h]
    exact lt_deferred_of_due?_eq_none hdue hs
  · intro u hu
    rw [advanceTo_now d h]
    exact lt_deadline_of_due?_eq_none hdue hu

/-- Nothing is due by a time that is past. -/
theorem Sound.due?_of_lt (hm : m.Sound d) (h : t < m.now) : m.due? (some t) = none := by
  rw [Option.eq_none_iff_forall_ne_some]
  rintro ⟨u, b⟩ hd
  obtain ⟨hn, hle⟩ := due?_eq_some_iff.mp hd
  have hu : m.now ≤ u := by
    cases b with
    | report s => exact (hm.deferred s u (deferred_of_next? hn)).1
    | giveUp => exact (hm.deadline u (deadline_of_next? hn)).1
  exact absurd (h.trans_le (hu.trans (hle t rfl))) (lt_irrefl t)

/-- Going to a time that is past changes nothing. -/
theorem Sound.advanceTo_eq (hm : m.Sound d) (h : t < m.now) : m.advanceTo d t = m := by
  rw [Watch.advanceTo, drain_of_none (hm.due?_of_lt h), Watch.wait, max_eq_left h.le]

theorem next?_idle {n : ℕ} (h : (m.idle d n).1 = true) : (m.idle d n).2.next? = none := by
  induction n generalizing m with
  | zero => contradiction
  | succ n ih =>
    rw [Watch.idle] at h ⊢
    split at h <;> simp_all

variable [IsOrderedAddMonoid τ]

theorem Prompt.assume (h : m.Prompt) (hp : 0 < d.patience) (a : Assumption) :
    (m.assume d a).Prompt := by
  unfold Watch.assume
  split
  · exact h
  · refine ⟨h.deferred, fun u hu => ?_⟩
    obtain rfl := Option.some.inj hu
    exact lt_add_of_pos_right m.now hp

theorem Prompt.pass (h : m.Prompt) (hp : 0 < d.patience) (s : Status) : (m.pass d s).Prompt := by
  have h₀ : Prompt { m with deferred := none, lastActed := m.now } :=
    ⟨fun _ _ hs => by contradiction, h.deadline⟩
  unfold Watch.pass Watch.act Watch.reveal
  split
  · split
    · have h₁ := h₀.assume hp .connecting
      exact ⟨h₁.deferred, h₁.deadline⟩
    · exact ⟨h₀.deferred, h₀.deadline⟩
  · split
    · split
      · have h₁ := h₀.drop.assume hp .connecting
        exact ⟨h₁.deferred, h₁.deadline⟩
      · exact ⟨h₀.deferred, h₀.drop.deadline⟩
    · exact ⟨h₀.deferred, h₀.deadline⟩

theorem Prompt.receive (h : m.Prompt) (hw : 0 < d.window) (hp : 0 < d.patience) (s : Status) :
    (m.receive d s).Prompt := by
  unfold Watch.receive
  split
  · exact h
  · split
    · refine ⟨fun s' u hs => ?_, h.deadline⟩
      obtain ⟨-, rfl⟩ := Prod.mk.inj (Option.some.inj hs)
      exact lt_add_of_pos_right m.now hw
    · exact h.pass hp s

end Watch

/-! ### Operations -/

section Operations

variable [AddCommGroup τ] [LinearOrder τ]

/-- Whether an operation takes the clock to a time that is not past. -/
def Op.reaches (now : τ) : Op τ → Bool
  | .advance delta => 0 ≤ delta
  | .advanceTo time => now ≤ time
  | .idle _ => true
  | _ => false

variable {d : Delays τ} {m : Watch τ} {op : Op τ} [IsOrderedAddMonoid τ]

namespace Watch

/-- An operation that takes the clock somewhere leaves nothing due, unless it is a run until idle
that its limit on firings ends. -/
theorem prompt_of_reaches (h : op.reaches m.now) : (m.runOp d op).2.Prompt ∨ ∃ most,
    op = .idle most ∧ (m.runOp d op).1 = .error (.failure (.stillPending most)) := by
  cases op <;> simp only [Op.reaches, decide_eq_true_eq, Bool.false_eq_true] at h
  case advance delta =>
    left
    rw [Watch.runOp, if_neg (not_lt.mpr h)]
    exact .advanceTo d (le_add_of_nonneg_right h)
  case advanceTo time => exact .inl (.advanceTo d h)
  case idle most =>
    rw [Watch.runOp]
    cases hdone : (m.idle d most.toNat).1 with
    | true => exact .inl (.of_next?_eq_none (next?_idle hdone))
    | false => exact .inr ⟨most, rfl, if_neg (by simp [hdone])⟩

/-- Any other operation leaves the clock where it is, and nothing falls due by it. -/
theorem Sound.prompt_of_not_reaches (hm : m.Sound d) (hw : 0 < d.window) (hp : 0 < d.patience)
    (h : op.reaches m.now = false) :
    (m.runOp d op).2.now = m.now ∧ (m.Prompt → (m.runOp d op).2.Prompt) := by
  cases op <;> simp only [Watch.runOp]
  case notify r =>
    cases r.read with
    | error fault => exact ⟨rfl, id⟩
    | ok s => exact ⟨receive_now s m, fun hm => hm.receive hw hp s⟩
  case expect kind =>
    cases Assumption.ofValue? kind with
    | none => exact ⟨rfl, id⟩
    | some a => exact ⟨assume_now a m, fun hm => hm.assume hp a⟩
  case reset => exact ⟨rfl, Prompt.drop⟩
  case close => exact ⟨rfl, fun _ => .close m⟩
  case closeView => exact ⟨rfl, fun _ => .close m⟩
  case advance delta =>
    have hdelta : delta < 0 := by simpa [Op.reaches] using h
    rw [if_pos hdelta]
    exact ⟨rfl, id⟩
  case advanceTo time =>
    have htime : time < m.now := by simpa [Op.reaches] using h
    rw [hm.advanceTo_eq htime]
    exact ⟨rfl, id⟩
  case idle most => contradiction
  all_goals exact ⟨trivial, id⟩

end Watch

/-- The clock was last moved by a run until idle that its limit on firings ended. -/
def Session.CutShort (host : Host τ σ) (fuel : ℕ) (ops : List (Op τ)) (w : World τ (Client σ)) :
    Prop :=
  ∃ before most after, ops = before ++ .idle most :: after ∧
    ((Op.idle most).run (outside host fuel) fuel (Session.after host fuel before w)).1 =
      .error (.failure (.stillPending most)) ∧
    ∀ op ∈ after, op.reaches (Session.after host fuel ops w).clock.now = false

variable {w : World τ (Client σ)} {host : Host τ σ} {fuel : ℕ} {ops : List (Op τ)}

omit [IsOrderedAddMonoid τ] in
theorem Session.after_append (before after : List (Op τ)) (w : World τ (Client σ)) :
    Session.after host fuel (before ++ after) w =
      Session.after host fuel after (Session.after host fuel before w) :=
  List.foldl_append

omit [IsOrderedAddMonoid τ] in
theorem Session.CutShort.append (h : Session.CutShort host fuel ops w)
    (hnow : (Session.after host fuel (ops ++ [op]) w).clock.now =
      (Session.after host fuel ops w).clock.now)
    (hop : op.reaches (Session.after host fuel ops w).clock.now = false) :
    Session.CutShort host fuel (ops ++ [op]) w := by
  obtain ⟨before, most, after, rfl, hfail, hafter⟩ := h
  refine ⟨before, most, after ++ [op], by simp, hfail, fun next hn => ?_⟩
  rw [hnow]
  rcases List.mem_append.mp hn with hn | hn
  · exact hafter next hn
  · exact List.mem_singleton.mp hn ▸ hop

/-- Nothing is due between operations, unless a run until idle was cut short. -/
theorem Matches.prompt_or_cutShort (h : Matches Client.Undisturbed d w m) (hm : m.Sound d)
    (hprompt : m.Prompt) (hhost : host.LooksOn) (hw : 0 < d.window) (hp : 0 < d.patience)
    (hf : 4 ≤ fuel) (hops : ∀ op ∈ ops, op.onView) :
    (m.after d ops).Prompt ∨ Session.CutShort host fuel ops w := by
  induction ops using List.reverseRecOn with
  | nil => exact .inl hprompt
  | append_singleton ops op ih =>
    have hops' : ∀ op ∈ ops, op.onView := fun op hop => hops op (by simp [hop])
    have h₁ := h.after hm.ripe hhost hw hp hf hops'
    have hm₁ := hm.after hw hp ops
    obtain ⟨hout, h₂⟩ := h₁.runOp hm₁.ripe hhost hw hp hf (hops op (by simp))
    have hafter : m.after d (ops ++ [op]) = ((m.after d ops).runOp d op).2 :=
      Watch.after_append d ops [op] m
    rw [hafter]
    cases hreach : op.reaches (m.after d ops).now with
    | true =>
      refine (Watch.prompt_of_reaches hreach).imp_right ?_
      rintro ⟨most, rfl, hfail⟩
      exact ⟨ops, most, [], rfl, hout.trans hfail, by simp⟩
    | false =>
      obtain ⟨hnow, hkeep⟩ := hm₁.prompt_of_not_reaches hw hp hreach
      refine (ih hops').imp hkeep fun hcut => hcut.append ?_ (h₁.now ▸ hreach)
      rw [Session.after_append, h₁.now, ← hnow]
      exact h₂.now

end Operations

/-! ### The balance -/

section Balance

/-- A view, its slots and its clock agree. -/
structure World.InBalance [LE τ] [Add τ] (d : Delays τ) (w : World τ ο) : Prop where
  fallback : w.rest.view.fallback.isSome ↔ w.rest.view.timing
  assumed : w.rest.view.fallback.isSome →
    w.rest.view.status = .bare .connecting ∨ w.rest.view.status = .bare (.disconnecting .nothing)
  closed : w.rest.view.closed →
    w.rest.view.fallback = none ∧ w.rest.view.timing = false ∧ w.rest.view.deferring = false
  pending : w.clock.pending = w.rest.view.timing.toNat + w.rest.view.deferring.toNat
  timeout : ∀ serial, w.rest.view.timeout.armed = some serial →
    ∃ t ∈ w.clock.timers, t.serial = serial ∧ t.call = .giveUp ∧
      w.clock.now ≤ t.deadline ∧ t.deadline ≤ w.clock.now + d.patience
  deferral : ∀ serial, w.rest.view.deferral.armed = some serial →
    ∃ t ∈ w.clock.timers, t.serial = serial ∧ (∃ s, t.call = .deferred s) ∧
      w.clock.now ≤ t.deadline ∧ t.deadline ≤ w.clock.now + d.window
  acted : w.rest.view.lastActed ≤ w.clock.now

variable [LinearOrder τ] {fine : ο → Prop} {d : Delays τ} {w : World τ ο} {m : Watch τ}

/-- A world is in balance if its watch is sound. -/
theorem Matches.inBalance [AddCommGroup τ] (h : Matches fine d w m) (hm : m.Sound d) :
    w.InBalance d := by
  obtain ⟨i, j, hi, hj, ht, -⟩ := h.calls
  constructor
  case fallback => rw [h.fallback, h.timing, hm.timed]
  case assumed =>
    intro hf
    rw [h.fallback] at hf
    obtain ⟨a, ha⟩ := hm.assumed hf
    rw [h.status, ha]
    cases a
    · exact .inl rfl
    · exact .inr rfl
  case closed =>
    intro hc
    rw [h.closed] at hc
    obtain ⟨hd, hu⟩ := hm.closed hc
    have hf : m.fallback = none := by simpa [hu] using hm.timed
    rw [h.fallback, h.timing, h.deferring, hd, hu, hf]
    exact ⟨rfl, rfl, rfl⟩
  case pending => rw [h.pending, h.timing, h.deferring, Nat.add_comm]
  case timeout =>
    intro serial hs
    rw [hj] at hs
    obtain ⟨u, hu, rfl⟩ := Option.map_eq_some_iff.mp hs
    refine ⟨⟨u, j, .giveUp⟩, ?_, rfl, rfl, ?_⟩
    · rw [ht]
      exact mem_calls.mpr (.inr ⟨u, hu, rfl⟩)
    · rw [h.now]
      exact hm.deadline u hu
  case deferral =>
    intro serial hs
    rw [hi] at hs
    obtain ⟨⟨s, u⟩, hu, rfl⟩ := Option.map_eq_some_iff.mp hs
    obtain ⟨hle, hlate, -⟩ := hm.deferred s u hu
    refine ⟨⟨u, i, .deferred s⟩, ?_, rfl, ⟨s, rfl⟩, ?_⟩
    · rw [ht]
      exact mem_calls.mpr (.inl ⟨s, u, hu, rfl⟩)
    · rw [h.now]
      exact ⟨hle, hlate⟩
  case acted => rw [h.lastActed, h.now]; exact hm.acted

/-- The clock of a world is ahead of no call if its watch is prompt. -/
theorem Matches.lt_deadline (h : Matches fine d w m) (hm : m.Prompt) {t : Timer τ Alarm}
    (ht : t ∈ w.clock.timers) : w.clock.now < t.deadline := by
  obtain ⟨i, j, -, -, htimers, -⟩ := h.calls
  rw [htimers] at ht
  rw [h.now]
  obtain ⟨s, u, hu, rfl⟩ | ⟨u, hu, rfl⟩ := mem_calls.mp ht
  · exact hm.deferred s u hu
  · exact hm.deadline u hu

end Balance

/-! ### Sessions -/

section Sessions

variable [AddCommGroup τ] [LinearOrder τ] [IsOrderedAddMonoid τ] {d : Delays τ} {host : Host τ σ}

/-- **Between operations all is in balance.** After any operations the slots, the fallback, the
status on show and the calls on the clock agree; no call is overdue or too far away, and one that is
due just now was left by a run until idle that its limit on firings ended. -/
theorem Session.in_balance (hhost : host.LooksOn) (hw : 0 < d.window) (hp : 0 < d.patience)
    {fuel : ℕ} (hf : 4 ≤ fuel) {client : Client σ} (hc : client.Undisturbed) (now : τ)
    {ops : List (Op τ)} (hops : ∀ op ∈ ops, op.onView) :
    let w₀ := Session.start d now client
    let w := Session.after host fuel ops w₀
    w.InBalance d ∧
      ((∀ t ∈ w.clock.timers, w.clock.now < t.deadline) ∨ Session.CutShort host fuel ops w₀) := by
  intro w₀ w
  have h₀ : Matches Client.Undisturbed d w₀ (Watch.start now) := .start client hc now
  have h : Matches Client.Undisturbed d w ((Watch.start now).after d ops) :=
    h₀.after (.start now) hhost hw hp hf hops
  have hm : Watch.Sound d ((Watch.start now).after d ops) := Watch.Sound.after (.start now) hw hp ops
  refine ⟨h.inBalance hm, ?_⟩
  exact (h₀.prompt_or_cutShort (.start now) (.start now) hhost hw hp hf hops).imp_left
    fun hprompt _ => h.lt_deadline hprompt

end Sessions

/-- A report that is put off while an assumption runs out: two calls, neither of them due. -/
theorem Session.in_balance_two_calls :
    let ops : List (Op ℤ) := [.expect (.text "connecting"), .advance 2849,
      .notify (.ready (.bare .disconnected)), .advance 1, .notify (.ready (.bare .connected))]
    let w := Session.after Replay.silent 5 ops (Session.start ⟨150, 3000⟩ 0 { memory := () })
    w.InBalance ⟨150, 3000⟩ ∧ w.clock.pending = 2 ∧ ∀ t ∈ w.clock.timers, w.clock.now < t.deadline := by
  intro ops w
  have hops : ∀ op ∈ ops, op.onView := by simp [ops, Op.onView]
  obtain ⟨hbalance, hdue⟩ := Session.in_balance (d := ⟨150, 3000⟩) Replay.silent_looksOn (by decide)
    (by decide) (show 4 ≤ 5 by decide) (Client.undisturbed_alone ()) 0 hops
  refine ⟨hbalance, rfl, hdue.resolve_right ?_⟩
  rintro ⟨before, most, after, he, -⟩
  have hidle : Op.idle most ∈ ops := by
    rw [he]
    simp
  simp [ops] at hidle

/-- With a limit of one, running until idle gives the assumption up and leaves the report that is
due at the same time. -/
theorem Session.due_when_cut_short :
    let ops : List (Op ℤ) := [.expect (.text "connecting"), .advance 2849,
      .notify (.ready (.bare .disconnected)), .advance 1, .notify (.ready (.bare .connected)),
      .idle 1]
    let w := Session.after Replay.silent 5 ops (Session.start ⟨150, 3000⟩ 0 { memory := () })
    w.rest.view.deferring = true ∧ w.clock.timers.map (·.deadline) = [w.clock.now] ∧
      ¬∀ t ∈ w.clock.timers, w.clock.now < t.deadline := by
  intro ops w
  have htimers : w.clock.timers.map (·.deadline) = [w.clock.now] := rfl
  refine ⟨rfl, htimers, fun h => ?_⟩
  obtain ⟨t, ht, he⟩ := List.mem_map.mp (htimers ▸ List.mem_singleton_self w.clock.now)
  exact (h t ht).ne' he

end TunnelView
