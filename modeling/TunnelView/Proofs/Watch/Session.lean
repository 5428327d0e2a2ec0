import Mathlib.Algebra.Order.Group.Int
import Mathlib.Algebra.Ring.Int.Defs
import TunnelView.Proofs.Watch.Simulation
import TunnelView.Session

/-!
# A session looks the same as its watch

Operations on a view are operations on its watch: with a host that only looks on, a session and a
watch that are given the same operations, in any number and order, show the same after each of them,
down to the failures that come back.

Key definitions: `Host.LooksOn`, `Host.CallsNothing`, `Host.Spares`, `Op.onView`, `Watch.runOp`,
`Watch.Kept`, `Sight`, `Session.sights`, `Watch.sights`.
Key theorems: `outside_attends`, `Matches.runOp`, `Session.looks_like_watch`.
-/

namespace TunnelView

variable {τ σ : Type}

/-- A host that only looks on: it calls nothing and never interrupts, but it may fail. -/
def Host.LooksOn (host : Host τ σ) : Prop :=
  ∀ memory call, (host memory call).2.ops = [] ∧
    ∀ stop, (host memory call).2.ending = some stop → ∃ f, stop = .failure f

/-- A host that calls nothing, but may be stopped whenever it is called. -/
def Host.CallsNothing (host : Host τ σ) : Prop := ∀ memory call, (host memory call).2.ops = []

theorem Host.LooksOn.callsNothing {host : Host τ σ} (h : host.LooksOn) : host.CallsNothing :=
  fun memory call => (h memory call).1

/-- A host that never interrupts when it is shown a status. -/
def Host.Spares (host : Host τ σ) (s : Status) : Prop :=
  ∀ memory stop, (host memory (.shown s)).2.ending = some stop → ∃ f, stop = .failure f

theorem Replay.silent_looksOn : (Replay.silent : Host τ Unit).LooksOn :=
  fun _ _ => ⟨rfl, fun _ h => by cases h⟩

/-- A client whose link, if it has one, hears only what is meant for it. -/
def Client.Undisturbed (c : Client σ) : Prop := ∀ l, c.link = some l → l.overhears = {}

theorem Client.undisturbed_alone (memory : σ) : ({ memory } : Client σ).Undisturbed :=
  fun _ h => by cases h

/-- Whether an operation is one on the view: a report, an assumption, a reset, a close, or a
movement of the clock to a time. -/
def Op.onView : Op τ → Bool
  | .notify _ | .expect _ | .reset | .close | .closeView => true
  | .advance _ | .advanceTo _ | .idle _ => true
  | _ => false

/-- Whether an operation closes the view. -/
def Op.closes : Op τ → Bool
  | .close | .closeView => true
  | _ => false

/-- Whether an operation only moves the clock to a time. -/
def Op.movesClock : Op τ → Bool
  | .advance _ | .advanceTo _ | .idle _ => true
  | _ => false

theorem Op.onView_of_movesClock {op : Op τ} (h : op.movesClock) : op.onView := by
  cases op <;> trivial

theorem silently_apply (x : Run τ (Client σ) Unit) (w : World τ (Client σ)) :
    silently x w = ((x w).1.map fun _ => .nothing, (x w).2) := by
  rw [silently, Act.bind_apply]
  rcases x w with ⟨_ | _, _⟩ <;> rfl

/-- What a call leaves behind of a host that calls nothing. -/
def World.answered (host : Host τ σ) (call : Call) (w : World τ (Client σ)) : World τ (Client σ) :=
  { w with
    rest.owner.memory := (host w.rest.owner.memory call).1
    rest.events := call.event w.clock.now :: w.rest.events }

theorem respond_of_callsNothing {host : Host τ σ} (h : host.CallsNothing)
    (run : Op τ → Run τ (Client σ) Reply) (call : Call) (w : World τ (Client σ)) :
    respond host run call w =
      ((host w.rest.owner.memory call).2.ending.elim (.ok ()) .error, w.answered host call) := by
  have hops := h w.rest.owner.memory call
  rcases hr : host w.rest.owner.memory call with ⟨memory, ops, ending⟩
  rw [hr] at hops
  obtain rfl : ops = [] := hops
  simp only [respond, Act.bind_apply, Act.change, Act.world, World.record, World.answered, hr,
    runOps, Act.pure_apply]
  cases ending <;> rfl

theorem Ends.silently [LinearOrder τ] {d : Delays τ} {w : World τ (Client σ)} {m : Watch τ}
    {x : Run τ (Client σ) Unit} (h : Ends Client.Undisturbed d (x w) m) :
    (silently x w).1 = .ok .nothing ∧ Matches Client.Undisturbed d (silently x w).2 m := by
  rw [silently_apply, h.1]
  exact ⟨rfl, h.2⟩

section Links

variable [Zero τ] [Add τ] [LT τ] [DecidableLT τ] [LE τ] [DecidableLE τ]

theorem Link.overhear_of_undisturbed {l : Link} (h : l.overhears = {}) (w : World τ (Client σ)) :
    l.overhear w = (.ok (), w) := by
  unfold Link.overhear
  rw [h]
  split <;> rfl

theorem tellLink_of_undisturbed {w : World τ (Client σ)} (h : w.rest.owner.Undisturbed) :
    tellLink w = (.ok (), w) := by
  rw [tellLink, Act.bind_apply]
  simp only [Client.link?]
  cases hl : w.rest.owner.link with
  | none => rfl
  | some l => exact Link.overhear_of_undisturbed (h l hl) w

variable [Sub τ]

/-- Whoever is shown statuses by a host that calls nothing does nothing to the view. -/
theorem outside_attends {host : Host τ σ} (h : host.CallsNothing) (n : ℕ) :
    (outside host (n + 1)).Attends Client.Undisturbed host.Spares where
  present s w hw := by
    refine ⟨(host w.rest.owner.memory (.shown s)).2.ending.elim (.ok ()) .error,
      (w.answered host (.shown s)).rest.owner, (w.answered host (.shown s)).rest.events, ?_, hw,
      fun hspares => ?_, rfl⟩
    · show (tellLink >>= fun _ => respond host _ (.shown s)) w = _
      rw [Act.bind_apply, tellLink_of_undisturbed hw]
      exact respond_of_callsNothing h _ _ w
    · cases hending : (host w.rest.owner.memory (.shown s)).2.ending with
      | none => exact .inl rfl
      | some stop =>
        obtain ⟨f, rfl⟩ := hspares _ stop hending
        exact .inr ⟨f, rfl⟩

/-- Whoever is shown statuses by a host that looks on looks on. -/
theorem outside_looksOn {host : Host τ σ} (h : host.LooksOn) (n : ℕ) :
    (outside host (n + 1)).LooksOn Client.Undisturbed where
  present s w hw := by
    obtain ⟨r, owner, events, hp, ho, hr, he⟩ :=
      (outside_attends h.callsNothing n).present s w hw
    exact ⟨r, owner, events, hp, ho, hr fun memory => (h memory (.shown s)).2, he⟩

end Links

section Operations

variable [AddCommGroup τ] [LinearOrder τ]

/-! ### Operations -/

/-- What an operation on a view does to a watch, and how it ends. -/
def Watch.runOp (d : Delays τ) (m : Watch τ) :
    Op τ → Except (Stop τ) Reply × Watch τ
  | .notify r =>
    match r.read with
    | .ok s => (.ok .nothing, m.receive d s)
    | .error fault => (.error (.failure (.report fault)), m)
  | .expect kind =>
    match Assumption.ofValue? kind with
    | some a => (.ok .nothing, m.assume d a)
    | none => (.error (.failure (.expectation kind)), m)
  | .reset => (.ok .nothing, m.drop)
  | .close | .closeView => (.ok .nothing, m.close)
  | .advance delta =>
    if delta < 0 then (.error (.failure (.backwards delta)), m)
    else (.ok .nothing, m.advanceTo d (m.now + delta))
  | .advanceTo time => (.ok .nothing, m.advanceTo d time)
  | .idle most =>
    let (done, m) := m.idle d most.toNat
    (if done then .ok .nothing else .error (.failure (.stillPending most)), m)
  | _ => (.ok .nothing, m)

variable {d : Delays τ} {w : World τ (Client σ)} {m : Watch τ} {host : Host τ σ}

variable [IsOrderedAddMonoid τ]

theorem Matches.runOp (h : Matches Client.Undisturbed d w m) (hm : m.Ripe d)
    (hhost : host.LooksOn) (hw : 0 < d.window) (hp : 0 < d.patience) {fuel : ℕ} (hf : 4 ≤ fuel)
    {op : Op τ} (hop : op.onView) :
    (op.run (outside host fuel) fuel w).1 = (m.runOp d op).1 ∧
      Matches Client.Undisturbed d (op.run (outside host fuel) fuel w).2 (m.runOp d op).2 := by
  obtain ⟨n, rfl⟩ : ∃ n, fuel = n + 1 := ⟨fuel - 1, by omega⟩
  have hout := outside_looksOn (τ := τ) hhost n
  cases op <;> simp only [Op.onView, Bool.false_eq_true] at hop
  case notify r =>
    simp only [Op.run, Watch.runOp]
    cases r.read with
    | error fault => exact ⟨rfl, h⟩
    | ok s => exact (h.receive hout hw hp s).silently
  case expect kind =>
    simp only [Op.run, Watch.runOp, View.expect]
    cases Assumption.ofValue? kind with
    | none => exact ⟨rfl, h⟩
    | some a => exact (h.assume hout hp a).silently
  case reset => exact h.drop.silently
  case close =>
    have ho : Ends Client.Undisturbed d (Link.change ({ · with listening := false }) w) m := by
      refine ⟨rfl, { h with owner := fun l hl => ?_ }⟩
      obtain ⟨l, hl', rfl⟩ := Option.map_eq_some_iff.mp hl
      exact h.owner l hl'
    exact (ho.bind fun _ h₁ => h₁.close hm).silently
  case closeView => exact (h.close hm).silently
  case advance delta =>
    simp only [Op.run, Watch.runOp, Timed.advance]
    split
    · exact ⟨rfl, h⟩
    · have ha := h.advanceTo hm hout hw hp hf (m.now + delta)
      rw [← h.now] at ha ⊢
      exact ha.silently
  case advanceTo time => exact (h.advanceTo hm hout hw hp hf time).silently
  case idle most =>
    obtain ⟨h1, h2⟩ := drainAll hout hw hp h hm most (n := most.toNat)
    simp only [Op.run, Watch.runOp, Timed.runUntilIdle, silently_apply]
    refine ⟨?_, h2⟩
    rw [h1]
    split <;> simp_all [Except.map]

omit [IsOrderedAddMonoid τ] in
/-- At most three deadlines can come in a row, so a limit of four is not met. -/
theorem Watch.runOp_idle {most : ℤ} (hmost : 4 ≤ most) (m : Watch τ) :
    m.runOp d (.idle most) = (.ok .nothing, m.drain d none) := by
  have hlt := m.weight_le
  rw [Watch.runOp, Watch.idle_eq_drain (by omega)]
  rfl

omit [IsOrderedAddMonoid τ] in
/-- What lasts while time passes is kept by operations that only move the clock. -/
theorem Watch.Lasting.runOp {P : Watch τ → Prop} (hP : Watch.Lasting d P) (h : P m) {op : Op τ}
    (hop : op.movesClock) : P (m.runOp d op).2 := by
  cases op <;> simp only [Op.movesClock, Bool.false_eq_true] at hop
  case advance delta =>
    rw [Watch.runOp]
    split
    · exact h
    · exact hP.advanceTo h _
  case advanceTo time => exact hP.advanceTo h time
  case idle most => exact hP.idle h most.toNat

omit [IsOrderedAddMonoid τ] in
variable (d) in
/-- What every operation on a watch keeps. -/
structure Watch.Kept (P : Watch τ → Prop) : Prop extends Watch.Lasting d P where
  receive : ∀ {m} s, P m → P (m.receive d s)
  assume : ∀ {m} a, P m → P (m.assume d a)
  drop : ∀ {m}, P m → P m.drop
  close : ∀ {m}, P m → P m.close

omit [IsOrderedAddMonoid τ] in
theorem Watch.Kept.runOp {P : Watch τ → Prop} (hP : Watch.Kept d P) (h : P m) (op : Op τ) :
    P (m.runOp d op).2 := by
  cases op with
  | notify r =>
    rw [Watch.runOp]
    cases r.read with
    | error fault => exact h
    | ok s => exact hP.receive s h
  | expect kind =>
    rw [Watch.runOp]
    cases Assumption.ofValue? kind with
    | none => exact h
    | some a => exact hP.assume a h
  | reset => exact hP.drop h
  | close => exact hP.close h
  | closeView => exact hP.close h
  | advance delta => exact hP.toLasting.runOp h rfl
  | advanceTo time => exact hP.toLasting.runOp h rfl
  | idle most => exact hP.toLasting.runOp h rfl
  | _ => exact h

theorem Watch.Sound.kept (hw : 0 < d.window) (hp : 0 < d.patience) : Watch.Kept d (Sound d) where
  toLasting := lasting hp
  receive s h := h.receive hw hp s
  assume a h := h.assume hp a
  drop h := h.drop
  close h := h.close

theorem Watch.Ripe.kept : Watch.Kept d (Ripe d) where
  toLasting := lasting
  receive s h := h.receive s
  assume a h := h.assume a
  drop h := h.drop
  close h := h.close

theorem Watch.Sound.runOp (hm : m.Sound d) (hw : 0 < d.window) (hp : 0 < d.patience) (op : Op τ) :
    (m.runOp d op).2.Sound d :=
  (kept hw hp).runOp hm op

end Operations

/-! ### What can be seen -/

/-- What can be seen of a view after an operation. -/
structure Sight (τ : Type) where
  outcome : Except (Stop τ) Reply
  /-- The statuses shown by the operation, with their times. -/
  shown : List (τ × Status)
  status : Status
  fallback : Option Status
  timing : Bool
  deferring : Bool
  closed : Bool
  now : τ
  /-- How many calls are still to come. -/
  pending : ℕ

/-- What can be seen of a world, with what came out of the last operation. -/
def World.sight (outcome : Except (Stop τ) Reply) (events : List (Event τ))
    (w : World τ (Client σ)) : Sight τ where
  outcome
  shown := Replay.commits events
  status := w.rest.view.status
  fallback := w.rest.view.fallback
  timing := w.rest.view.timing
  deferring := w.rest.view.deferring
  closed := w.rest.view.closed
  now := w.clock.now
  pending := w.clock.pending

/-- What can be seen of a watch; what was shown counts from the last operation on. -/
def Watch.sight (outcome : Except (Stop τ) Reply) (m : Watch τ) : Sight τ where
  outcome
  shown := m.shown.reverse
  status := m.status
  fallback := m.fallback
  timing := m.deadline.isSome
  deferring := m.deferred.isSome
  closed := m.closed
  now := m.now
  pending := m.deferred.isSome.toNat + m.deadline.isSome.toNat

section Seen

variable [LinearOrder τ] {d : Delays τ} {w : World τ (Client σ)} {m : Watch τ}

theorem Matches.start (client : Client σ) (hc : client.Undisturbed) (now : τ) :
    Matches Client.Undisturbed d (Session.start d now client) (Watch.start now) where
  owner := hc
  delays := rfl
  now := rfl
  status := rfl
  lastActed := rfl
  fallback := rfl
  closed := rfl
  shown := rfl
  ordered := rfl
  fresh _ h := by simp [Session.start] at h
  calls := ⟨0, 0, rfl, rfl, rfl, fun h => by simp [Watch.start] at h⟩

/-- A world looks like its watch. -/
theorem Matches.sight_eq (h : Matches Client.Undisturbed d w m) (outcome : Except (Stop τ) Reply) :
    w.sight outcome w.rest.events.reverse = m.sight outcome := by
  have hs : Replay.commits w.rest.events.reverse = m.shown.reverse := by
    rw [← h.shown, Replay.commits, List.filterMap_reverse]
    rfl
  rw [World.sight, Watch.sight, hs, h.status, h.fallback, h.timing, h.deferring, h.closed, h.now,
    h.pending]

variable [AddCommGroup τ]

/-- What can be seen after each operation of a session. -/
def Session.sights (host : Host τ σ) (fuel : ℕ) : List (Op τ) → World τ (Client σ) → List (Sight τ)
  | [], _ => []
  | op :: ops, w =>
    let r := Session.step host fuel op w
    r.2.2.sight r.1 r.2.1 :: Session.sights host fuel ops r.2.2

/-- What can be seen after each operation on a watch. -/
def Watch.sights (d : Delays τ) : List (Op τ) → Watch τ → List (Sight τ)
  | [], _ => []
  | op :: ops, m =>
    let r := m.runOp d op
    r.2.sight r.1 :: Watch.sights d ops { r.2 with shown := [] }

variable [IsOrderedAddMonoid τ] {host : Host τ σ}

theorem Matches.sights_eq (h : Matches Client.Undisturbed d w m) (hm : m.Ripe d)
    (hhost : host.LooksOn) (hw : 0 < d.window) (hp : 0 < d.patience) {fuel : ℕ} (hf : 4 ≤ fuel)
    {ops : List (Op τ)} (hops : ∀ op ∈ ops, op.onView) :
    Session.sights host fuel ops w = Watch.sights d ops m := by
  induction ops generalizing w m with
  | nil => rfl
  | cons op ops ih =>
    obtain ⟨h1, h2⟩ := h.runOp hm hhost hw hp hf (hops op (by simp))
    have hn : Matches Client.Undisturbed d (Session.step host fuel op w).2.2
        { (m.runOp d op).2 with shown := [] } := { h2 with shown := rfl }
    have hs : Watch.Ripe d { (m.runOp d op).2 with shown := [] } :=
      { Watch.Ripe.kept.runOp hm op with }
    rw [Session.sights, Watch.sights, ih hn hs fun op hop => hops op (by simp [hop]), ← h1,
      ← h2.sight_eq]
    rfl

/-- **A view is two deadlines.** Given the same operations, a session and its watch show the same
after each of them: the outcome, the statuses shown with their times, the status and the fallback,
whether an assumption is timed and a report put off, whether it is closed, the time, and how many
calls are still to come. -/
theorem Session.looks_like_watch (hhost : host.LooksOn) (hw : 0 < d.window) (hp : 0 < d.patience)
    {fuel : ℕ} (hf : 4 ≤ fuel) {client : Client σ} (hc : client.Undisturbed) (now : τ)
    {ops : List (Op τ)} (hops : ∀ op ∈ ops, op.onView) :
    Session.sights host fuel ops (Session.start d now client) =
      Watch.sights d ops (Watch.start now) :=
  (Matches.start client hc now).sights_eq (.start now) hhost hw hp hf hops

end Seen

/-- A host that fails whenever it is called, and a report put off while an assumption runs out. -/
theorem Session.looks_like_watch_failing_host :
    let host : Host ℤ Unit := fun memory _ =>
      (memory, { ending := some (.failure (.foreign "OSError" "")) })
    let ops : List (Op ℤ) := [.advance 200, .expect (.text "connecting"), .advance 2900,
      .notify (.ready (.bare (.disconnecting .reconnect))), .notify (.ready (.bare .connected)),
      .advance 100, .idle 10000, .close]
    host.LooksOn ∧ (0 : ℤ) < 150 ∧ (0 : ℤ) < 3000 ∧ 4 ≤ 5 ∧ (∀ op ∈ ops, op.onView) ∧
      Session.sights host 5 ops (Session.start ⟨150, 3000⟩ 0 { memory := () }) =
        Watch.sights ⟨150, 3000⟩ ops (Watch.start 0) := by
  intro host ops
  have hhost : host.LooksOn := fun _ _ => ⟨rfl, fun _ h => ⟨_, (Option.some.inj h).symm⟩⟩
  have hops : ∀ op ∈ ops, op.onView := by simp [ops, Op.onView]
  have h := Session.looks_like_watch (d := ⟨150, 3000⟩) hhost (by decide) (by decide)
    (show 4 ≤ 5 by decide) (Client.undisturbed_alone ()) 0 hops
  exact ⟨hhost, by decide, by decide, by decide, hops, h⟩

/-! ### Sessions as a whole -/

section

variable [AddCommGroup τ] [LinearOrder τ]

/-- The world after operations, whether or not some of them failed. -/
def Session.after (host : Host τ σ) (fuel : ℕ) (ops : List (Op τ)) (w : World τ (Client σ)) :
    World τ (Client σ) :=
  ops.foldl (fun w op => (op.run (outside host fuel) fuel w).2) w

/-- The watch after operations. -/
def Watch.after (d : Delays τ) (ops : List (Op τ)) (m : Watch τ) : Watch τ :=
  ops.foldl (fun m op => (m.runOp d op).2) m

theorem Watch.after_append (d : Delays τ) (before after : List (Op τ)) (m : Watch τ) :
    m.after d (before ++ after) = (m.after d before).after d after :=
  List.foldl_append

variable [IsOrderedAddMonoid τ] {d : Delays τ} {w : World τ (Client σ)} {m : Watch τ}
  {host : Host τ σ}

omit [IsOrderedAddMonoid τ] in
theorem Watch.Kept.after {P : Watch τ → Prop} (hP : Watch.Kept d P) (h : P m) (ops : List (Op τ)) :
    P (m.after d ops) := by
  induction ops generalizing m with
  | nil => exact h
  | cons op ops ih => exact ih (hP.runOp h op)

omit [IsOrderedAddMonoid τ] in
theorem Watch.Lasting.after {P : Watch τ → Prop} (hP : Watch.Lasting d P) (h : P m)
    {ops : List (Op τ)} (hops : ∀ op ∈ ops, op.movesClock) : P (m.after d ops) := by
  induction ops generalizing m with
  | nil => exact h
  | cons op ops ih =>
    exact ih (hP.runOp h (hops op (by simp))) fun op hop => hops op (by simp [hop])

theorem Watch.Sound.after (hm : m.Sound d) (hw : 0 < d.window) (hp : 0 < d.patience)
    (ops : List (Op τ)) : (m.after d ops).Sound d :=
  (kept hw hp).after hm ops

theorem Matches.after (h : Matches Client.Undisturbed d w m) (hm : m.Ripe d)
    (hhost : host.LooksOn) (hw : 0 < d.window) (hp : 0 < d.patience) {fuel : ℕ} (hf : 4 ≤ fuel)
    {ops : List (Op τ)} (hops : ∀ op ∈ ops, op.onView) :
    Matches Client.Undisturbed d (Session.after host fuel ops w) (m.after d ops) := by
  induction ops generalizing w m with
  | nil => exact h
  | cons op ops ih =>
    have h₁ := (h.runOp hm hhost hw hp hf (hops op (by simp))).2
    exact ih h₁ (Watch.Ripe.kept.runOp hm op) fun op hop => hops op (by simp [hop])

end
end TunnelView
