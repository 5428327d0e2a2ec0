import TunnelView.Proofs.Stays
import TunnelView.Proofs.Watch
import TunnelView.Replay

/-!
# A view keeps step with its watch

A world and a watch match if they show the same and the calls on the world's clock are the deadlines
of the watch, in the order in which they come. Whatever a view does keeps it matching a watch that
does the same, as long as whoever is shown a status only looks on.

Key definitions: `Watch.calls`, `Matches`, `Outside.LooksOn`, `Outside.Attends`, `Ends`.
Key theorems: `Matches.receive`, `Matches.popDue`, `Matches.drain`.
-/

namespace TunnelView

variable {τ ο : Type}

/-! ### The calls on the clock -/

section Calls

variable [LinearOrder τ] {m : Watch τ} {i j : ℕ} {s : Status} {t : τ}

/-- The calls that the deadlines of a watch stand for, under the serial numbers `i` and `j`. -/
def Watch.calls (i j : ℕ) (m : Watch τ) : List (Timer τ Alarm) :=
  match m.deferred, m.deadline with
  | none, none => []
  | some (s, t), none => [⟨t, i, .deferred s⟩]
  | none, some u => [⟨u, j, .giveUp⟩]
  | some (s, t), some u =>
    if m.reportLeads t u then [⟨t, i, .deferred s⟩, ⟨u, j, .giveUp⟩]
    else [⟨u, j, .giveUp⟩, ⟨t, i, .deferred s⟩]

/-- The alarm of a deadline. -/
def Watch.Bell.alarm : Watch.Bell → Alarm
  | .report s => .deferred s
  | .giveUp => .giveUp

/-- The serial number of a deadline's call. -/
def Watch.Bell.serial (i j : ℕ) : Watch.Bell → ℕ
  | .report _ => i
  | .giveUp => j

/-- The slot that holds the call of a deadline. -/
def Watch.Bell.slot (v : View τ) : Watch.Bell → Slot
  | .report _ => v.deferral
  | .giveUp => v.timeout

/-- What is done when a deadline comes. -/
def Watch.Bell.answer [Zero τ] [Add τ] [Sub τ] (out : Outside τ ο) : Watch.Bell → Run τ ο Unit
  | .report s => View.receive out s
  | .giveUp => View.giveUp out

theorem insert_deferred (k : ℕ) (hd : m.deferred = none) :
    Clock.insert ⟨t, i, .deferred s⟩ (m.calls k j) =
      ({ m with deferred := some (s, t), reportFirst := false } : Watch τ).calls i j := by
  cases hu : m.deadline with
  | none => simp [Watch.calls, hd, hu, Clock.insert]
  | some u => by_cases h : t < u <;> simp [Watch.calls, Watch.reportLeads, hd, hu, Clock.insert, h]

theorem insert_giveUp (k : ℕ) (hu : m.deadline = none) :
    Clock.insert ⟨t, j, .giveUp⟩ (m.calls i k) =
      ({ m with deadline := some t, reportFirst := true } : Watch τ).calls i j := by
  rcases hd : m.deferred with _ | ⟨s, u⟩
  · simp [Watch.calls, hd, hu, Clock.insert]
  · by_cases h : t < u
    · have h1 : ¬u ≤ t := not_le.mpr h
      simp [Watch.calls, Watch.reportLeads, hd, hu, Clock.insert, h, ← le_iff_lt_or_eq, h1]
    · simp [Watch.calls, Watch.reportLeads, hd, hu, Clock.insert, h, ← le_iff_lt_or_eq, not_lt.mp h]

/-- Whether the two deadlines have different serial numbers. -/
def Watch.Apart (i j : ℕ) (m : Watch τ) : Prop :=
  m.deferred.isSome → m.deadline.isSome → i ≠ j

theorem filter_deferred (h : m.Apart i j) (hd : m.deferred.isSome) :
    (m.calls i j).filter (·.serial != i) = ({ m with deferred := none } : Watch τ).calls i j := by
  obtain ⟨⟨s, t⟩, hs⟩ := Option.isSome_iff_exists.mp hd
  cases hu : m.deadline with
  | none => simp [Watch.calls, hs, hu]
  | some u =>
    have hij : i ≠ j := h hd (by simp [hu])
    by_cases hl : m.reportLeads t u <;> simp [Watch.calls, hs, hu, hl, hij.symm]

theorem filter_giveUp (h : m.Apart i j) (hd : m.deadline.isSome) :
    (m.calls i j).filter (·.serial != j) = ({ m with deadline := none } : Watch τ).calls i j := by
  obtain ⟨u, hu⟩ := Option.isSome_iff_exists.mp hd
  rcases hs : m.deferred with _ | ⟨s, t⟩
  · simp [Watch.calls, hs, hu]
  · have hij : i ≠ j := h (by simp [hs]) hd
    by_cases hl : m.reportLeads t u <;> simp [Watch.calls, hs, hu, hl, hij]

theorem head?_calls (i j : ℕ) (m : Watch τ) :
    (m.calls i j).head? = m.next?.map fun (t, b) => ⟨t, b.serial i j, b.alarm⟩ := by
  rcases hs : m.deferred with _ | ⟨s, t⟩
  · cases hu : m.deadline <;> simp [Watch.calls, Watch.next?, hs, hu, Watch.Bell.serial,
      Watch.Bell.alarm]
  · rcases hu : m.deadline with _ | u
    · simp [Watch.calls, Watch.next?, hs, hu, Watch.Bell.serial, Watch.Bell.alarm]
    · cases hl : m.reportLeads t u <;>
        simp [Watch.calls, Watch.next?, hs, hu, hl, Watch.Bell.serial, Watch.Bell.alarm]

theorem Watch.calls_length (i j : ℕ) (m : Watch τ) :
    (m.calls i j).length = m.deferred.isSome.toNat + m.deadline.isSome.toNat := by
  rcases hs : m.deferred with _ | ⟨s, t⟩
  · cases hu : m.deadline <;> simp [Watch.calls, hs, hu]
  · rcases hu : m.deadline with _ | u
    · simp [Watch.calls, hs, hu]
    · cases hl : m.reportLeads t u <;> simp [Watch.calls, hs, hu, hl]

theorem mem_calls {x : Timer τ Alarm} : x ∈ m.calls i j ↔
    (∃ s t, m.deferred = some (s, t) ∧ x = ⟨t, i, .deferred s⟩) ∨
      ∃ t, m.deadline = some t ∧ x = ⟨t, j, .giveUp⟩ := by
  rcases hs : m.deferred with _ | ⟨s, t⟩
  · cases hu : m.deadline <;> simp [Watch.calls, hs, hu]
  · rcases hu : m.deadline with _ | u
    · simp [Watch.calls, hs, hu, and_assoc]
    · cases hl : m.reportLeads t u <;> simp [Watch.calls, hs, hu, hl, and_assoc, or_comm]

theorem eraseP_deferred (h : m.next? = some (t, .report s)) :
    (m.calls i j).eraseP (·.serial == i) = ({ m with deferred := none } : Watch τ).calls i j := by
  have hs := Watch.deferred_of_next? h
  cases hu : m.deadline with
  | none => simp [Watch.calls, hs, hu]
  | some u =>
    have hl : m.reportLeads t u = true := by
      by_contra hl
      simp [Watch.next?, hs, hu, hl] at h
    simp [Watch.calls, hs, hu, hl]

theorem eraseP_giveUp (h : m.next? = some (t, .giveUp)) :
    (m.calls i j).eraseP (·.serial == j) = ({ m with deadline := none } : Watch τ).calls i j := by
  have hu := Watch.deadline_of_next? h
  rcases hs : m.deferred with _ | ⟨s, v⟩
  · simp [Watch.calls, hs, hu]
  · have hl : m.reportLeads v t = false := by
      by_contra hl
      simp [Watch.next?, hs, hu, hl] at h
    simp [Watch.calls, hs, hu, hl]

end Calls

/-! ### Matching -/

/-- Whoever is shown a status looks on: the view and the clock stay as they are, the status is
recorded, and at most a failure comes back. It is enough that the owner is `fine`, which stays so.
-/
structure Outside.LooksOn (fine : ο → Prop) (out : Outside τ ο) : Prop where
  present : ∀ s w, fine w.rest.owner → ∃ r owner events,
    out.present s w = (r, { w with rest.owner := owner, rest.events := events }) ∧ fine owner ∧
      (r = .ok () ∨ ∃ f, r = .error (.failure f)) ∧
      Replay.commits events = (w.clock.now, s) :: Replay.commits w.rest.events

/-- Whoever is shown a status does nothing to the view and the clock, and the status is recorded; but
the run may be interrupted, unless the status is `safe`. -/
structure Outside.Attends (fine : ο → Prop) (safe : Status → Prop) (out : Outside τ ο) : Prop where
  present : ∀ s w, fine w.rest.owner → ∃ r owner events,
    out.present s w = (r, { w with rest.owner := owner, rest.events := events }) ∧ fine owner ∧
      (safe s → r = .ok () ∨ ∃ f, r = .error (.failure f)) ∧
      Replay.commits events = (w.clock.now, s) :: Replay.commits w.rest.events

theorem Outside.LooksOn.attends {fine : ο → Prop} {out : Outside τ ο} (h : out.LooksOn fine) :
    out.Attends fine fun _ => True where
  present s w hw := by
    obtain ⟨r, owner, events, hp, ho, hr, he⟩ := h.present s w hw
    exact ⟨r, owner, events, hp, ho, fun _ => hr, he⟩

/-- A world and a watch that show the same, where the calls on the clock are the deadlines. -/
structure Matches [LinearOrder τ] (fine : ο → Prop) (d : Delays τ) (w : World τ ο)
    (m : Watch τ) : Prop where
  owner : fine w.rest.owner
  delays : w.rest.view.delays = d
  now : w.clock.now = m.now
  status : w.rest.view.status = m.status
  lastActed : w.rest.view.lastActed = m.lastActed
  fallback : w.rest.view.fallback = m.fallback
  closed : w.rest.view.closed = m.closed
  shown : Replay.commits w.rest.events = m.shown
  ordered : w.clock.ordered = true
  fresh : ∀ t ∈ w.clock.timers, t.serial < w.clock.next
  calls : ∃ i j, w.rest.view.deferral.armed = m.deferred.map (fun _ => i) ∧
    w.rest.view.timeout.armed = m.deadline.map (fun _ => j) ∧
    w.clock.timers = m.calls i j ∧ m.Apart i j

/-- A run comes to its end in a world that matches a watch. -/
def Ends [LinearOrder τ] (fine : ο → Prop) (d : Delays τ) (r : Except (Stop τ) Unit × World τ ο)
    (m : Watch τ) : Prop :=
  r.1 = .ok () ∧ Matches fine d r.2 m

theorem View.current_bind (k : View τ → Run τ ο Unit) (w : World τ ο) :
    (View.current >>= k) w = k w.rest.view w := rfl

theorem Timed.now_bind [LinearOrder τ] [AddCommGroup τ] (k : τ → Run τ ο Unit) (w : World τ ο) :
    ((Timed.now : Run τ ο τ) >>= k) w = k w.clock.now w := rfl

/-- How many calls fire until nothing is due by the limit, or the fuel is used up. -/
def Timed.firings {C ω κ : Type} [Timekeeper C τ κ] (fire : Timed.Fire C ω τ κ)
    (limit : Option τ) : ℕ → Timed C ω → ℕ
  | 0, _ => 0
  | fuel + 1, w =>
    match Timed.popDue limit w with
    | (.ok (some t), w) => Timed.firings fire limit fuel (fire t w).2 + 1
    | _ => 0

section Simulation

variable [LinearOrder τ] {fine : ο → Prop} {d : Delays τ} {w : World τ ο} {m : Watch τ}
  {out : Outside τ ο}

namespace Ends

theorem bind {x y : Run τ ο Unit} {m₁ m₂ : Watch τ} (hx : Ends fine d (x w) m₁)
    (hy : ∀ w₁, Matches fine d w₁ m₁ → Ends fine d (y w₁) m₂) :
    Ends fine d ((x >>= fun _ => y) w) m₂ := by
  obtain ⟨h1, h2⟩ := hx
  rw [Act.bind_apply]
  rcases hw : x w with ⟨r, w₁⟩
  rw [hw] at h1 h2
  obtain rfl : r = .ok () := h1
  exact hy w₁ h2

theorem pure (h : Matches fine d w m) : Ends fine d ((Pure.pure () : Run τ ο Unit) w) m := ⟨rfl, h⟩

end Ends

namespace Matches

theorem deferring (h : Matches fine d w m) : w.rest.view.deferring = m.deferred.isSome := by
  obtain ⟨i, j, hi, -⟩ := h.calls
  rw [View.deferring, Slot.pending, hi, Option.isSome_map]

theorem timing (h : Matches fine d w m) : w.rest.view.timing = m.deadline.isSome := by
  obtain ⟨i, j, -, hj, -⟩ := h.calls
  rw [View.timing, Slot.pending, hj, Option.isSome_map]

theorem pending (h : Matches fine d w m) :
    w.clock.pending = m.deferred.isSome.toNat + m.deadline.isSome.toNat := by
  obtain ⟨i, j, -, -, ht, -⟩ := h.calls
  rw [Clock.pending, ht, Watch.calls_length]

/-- The call that gives an assumption up is due at the deadline of the watch. -/
theorem deadline_of_mem (h : Matches fine d w m) {t : Timer τ Alarm} (ht : t ∈ w.clock.timers)
    (hc : t.call = .giveUp) : m.deadline = some t.deadline := by
  obtain ⟨i, j, -, -, htimers, -⟩ := h.calls
  rw [htimers] at ht
  obtain ⟨s, u, -, rfl⟩ | ⟨u, hu, rfl⟩ := mem_calls.mp ht
  · contradiction
  · exact hu

/-- The serial number of the timeout slot is that of no other call. -/
theorem call_of_serial (h : Matches fine d w m) {t : Timer τ Alarm} (ht : t ∈ w.clock.timers)
    (ha : w.rest.view.timeout.armed = some t.serial) : t.call = .giveUp := by
  obtain ⟨i, j, -, hj, htimers, hapart⟩ := h.calls
  rw [htimers] at ht
  obtain ⟨s, u, hs, rfl⟩ | ⟨u, -, rfl⟩ := mem_calls.mp ht
  · rw [hj] at ha
    obtain ⟨v, hv, he⟩ := Option.map_eq_some_iff.mp ha
    exact absurd he.symm (hapart (by simp [hs]) (by simp [hv]))
  · rfl

theorem note (h : Matches fine d w m) (n : Note τ) : Ends fine d (note n w) m :=
  ⟨rfl, { h with }⟩

theorem setFallback (h : Matches fine d w m) (s : Option Status) :
    Ends fine d (View.change ({ · with fallback := s }) w) { m with fallback := s } :=
  ⟨rfl, { h with fallback := rfl }⟩

theorem setActed (h : Matches fine d w m) (t : τ) :
    Ends fine d (View.change ({ · with lastActed := t }) w) { m with lastActed := t } :=
  ⟨rfl, { h with lastActed := rfl }⟩

theorem setClosed (h : Matches fine d w m) :
    Ends fine d (View.change ({ · with closed := true }) w) { m with closed := true } :=
  ⟨rfl, { h with closed := rfl }⟩

/-- Showing a status is one call of the code outside, whether or not it fails or interrupts; and only
an interrupt goes on to the view. -/
theorem commit_attended {safe : Status → Prop} (h : Matches fine d w m)
    (hout : out.Attends fine safe) (s : Status) :
    Matches fine d (View.commit out s w).2 (m.commit s) ∧
      (safe s → (View.commit out s w).1 = .ok ()) := by
  let turned : World τ ο := { w with rest.view.status := s }
  let shown := turned.record (.log (.commit w.rest.view.status s))
  have hrun : View.commit out s w = guarded (View.showing.settle ()) (out.present s) shown := rfl
  obtain ⟨r, owner, events, hp, ho, hr, he⟩ := hout.present s shown h.owner
  have hs : Replay.commits events = (m.now, s) :: m.shown := by
    rw [he, ← h.now, ← h.shown]
    rfl
  rw [hrun, guarded, hp]
  rcases r with (f | message | _) | _
  · exact ⟨{ h with owner := ho, status := rfl, shown := hs }, fun _ => rfl⟩
  all_goals refine ⟨{ h with owner := ho, status := rfl, shown := hs }, fun hsafe => ?_⟩
  · simpa using hr hsafe
  · simpa using hr hsafe
  · rfl

theorem commit (h : Matches fine d w m) (hout : out.LooksOn fine) (s : Status) :
    Ends fine d (View.commit out s w) (m.commit s) := by
  obtain ⟨hmatches, hends⟩ := h.commit_attended hout.attends s
  exact ⟨hends trivial, hmatches⟩

theorem giveUp (h : Matches fine d w m) (hout : out.LooksOn fine) (hc : m.closed = false) :
    Ends fine d (View.giveUp out w) m.giveUp := by
  rw [View.giveUp, View.current_bind, h.closed, h.fallback, hc, Watch.giveUp]
  cases hf : m.fallback with
  | none => exact .pure h
  | some s =>
    refine (h.setFallback none).bind fun _ h₁ => (h₁.note _).bind fun _ h₂ => ?_
    exact h₂.commit hout s

/-! ### What falls due -/

theorem tidied (h : Matches fine d w m) : Matches fine d { w with clock := w.clock.tidied } m :=
  { h with }

/-- What the clock finds due by a limit is the call of the deadline that is due by it. -/
theorem popDue (h : Matches fine d w m) (limit : Option τ) : ∃ i j,
    w.rest.view.deferral.armed = m.deferred.map (fun _ => i) ∧
    w.rest.view.timeout.armed = m.deadline.map (fun _ => j) ∧
    w.clock.timers = m.calls i j ∧ m.Apart i j ∧
    w.clock.popDue limit = match m.due? limit with
      | none => (none, w.clock.tidied)
      | some (t, b) =>
        (some ⟨t, b.serial i j, b.alarm⟩, w.clock.tidied.fired ⟨t, b.serial i j, b.alarm⟩) := by
  obtain ⟨i, j, hi, hj, ht, ha⟩ := h.calls
  refine ⟨i, j, hi, hj, ht, ha, ?_⟩
  have hf : w.clock.tidied.first? = m.next?.map fun (t, b) => ⟨t, b.serial i j, b.alarm⟩ := by
    rw [← head?_calls, ← ht]
    exact if_pos h.ordered
  rw [Clock.popDue, hf, Watch.due?]
  rcases m.next? with _ | ⟨t, b⟩
  · rfl
  · cases limit with
    | none => rfl
    | some l => by_cases hl : l < t <;> simp [Option.filter, ← not_lt, hl]

theorem popDue_eq_none (h : Matches fine d w m) (limit : Option τ) :
    (w.clock.popDue limit).1 = none ↔ m.due? limit = none := by
  obtain ⟨i, j, -, -, -, -, hpop⟩ := h.popDue limit
  rw [hpop]
  cases m.due? limit <;> simp

theorem fired_report (h : Matches fine d w m) {i j : ℕ} {t : τ} {s : Status}
    (hj : w.rest.view.timeout.armed = m.deadline.map fun _ => j)
    (ht : w.clock.timers = m.calls i j) (hn : m.next? = some (t, .report s)) :
    Matches fine d
      { w with
        clock := w.clock.tidied.fired ⟨t, i, .deferred s⟩
        rest.view.deferral := w.rest.view.deferral.emptied }
      { m.wait t with deferred := none } := by
  have ht' : (w.clock.tidied.fired ⟨t, i, .deferred s⟩).timers =
      ({ m.wait t with deferred := none } : Watch τ).calls i j := by
    have he := eraseP_deferred (i := i) (j := j) hn
    rw [← ht] at he
    exact he
  refine { h with now := ?_, fresh := ?_, calls := ⟨i, j, rfl, hj, ht', fun h => by simp at h⟩ }
  · show later w.clock.now t = max m.now t
    rw [later_eq_max, h.now]
  · exact fun u hu => h.fresh u (List.mem_of_mem_eraseP hu)

theorem fired_giveUp (h : Matches fine d w m) {i j : ℕ} {t : τ}
    (hi : w.rest.view.deferral.armed = m.deferred.map fun _ => i)
    (ht : w.clock.timers = m.calls i j) (hn : m.next? = some (t, .giveUp)) :
    Matches fine d
      { w with
        clock := w.clock.tidied.fired ⟨t, j, .giveUp⟩
        rest.view.timeout := w.rest.view.timeout.emptied }
      { m.wait t with deadline := none } := by
  have ht' : (w.clock.tidied.fired ⟨t, j, .giveUp⟩).timers =
      ({ m.wait t with deadline := none } : Watch τ).calls i j := by
    have he := eraseP_giveUp (i := i) (j := j) hn
    rw [← ht] at he
    exact he
  refine { h with now := ?_, fresh := ?_, calls := ⟨i, j, hi, rfl, ht', fun _ h => by simp at h⟩ }
  · show later w.clock.now t = max m.now t
    rw [later_eq_max, h.now]
  · exact fun u hu => h.fresh u (List.mem_of_mem_eraseP hu)

/-! ### The slots -/

variable [AddCommGroup τ]

theorem cancelTimeout (h : Matches fine d w m) :
    Ends fine d (View.cancelTimeout w) { m with deadline := none } := by
  obtain ⟨i, j, hi, hj, ht, ha⟩ := h.calls
  refine ⟨rfl, ?_⟩
  cases hu : m.deadline with
  | none =>
    rw [hu] at hj
    simp only [View.cancelTimeout, Act.change, Slot.cancel, hj, Option.map_none]
    exact { h with calls := ⟨i, j, hi, rfl, by rw [ht, ← hu], fun _ h => by simp at h⟩ }
  | some u =>
    rw [hu] at hj
    simp only [View.cancelTimeout, Act.change, Slot.cancel, hj, Option.map_some]
    have hf : (Clock.disarm j w.clock).timers =
        ({ m with deadline := none } : Watch τ).calls i j := by
      rw [← filter_giveUp ha (by simp [hu]), ← ht]
      rfl
    exact { h with
      fresh := fun t h' => h.fresh t (List.mem_filter.mp h').1
      calls := ⟨i, j, hi, rfl, hf, fun _ h => by simp at h⟩ }

theorem cancelDeferral (h : Matches fine d w m) :
    Ends fine d (View.cancelDeferral w) { m with deferred := none } := by
  obtain ⟨i, j, hi, hj, ht, ha⟩ := h.calls
  refine ⟨rfl, ?_⟩
  rcases hs : m.deferred with _ | ⟨s, u⟩
  · rw [hs] at hi
    simp only [View.cancelDeferral, Act.change, Slot.cancel, hi, Option.map_none]
    exact { h with calls := ⟨i, j, rfl, hj, by rw [ht, ← hs], fun h => by simp at h⟩ }
  · rw [hs] at hi
    simp only [View.cancelDeferral, Act.change, Slot.cancel, hi, Option.map_some]
    have hf : (Clock.disarm i w.clock).timers =
        ({ m with deferred := none } : Watch τ).calls i j := by
      rw [← filter_deferred ha (by simp [hs]), ← ht]
      rfl
    exact { h with
      fresh := fun t h' => h.fresh t (List.mem_filter.mp h').1
      calls := ⟨i, j, rfl, hj, hf, fun h => by simp at h⟩ }

theorem deadline_of_delay {δ : τ} (h : Matches fine d w m) (hδ : 0 < δ) :
    w.clock.now + delayed δ = m.now + δ := by
  rw [h.now, delayed, if_neg (not_lt.mpr hδ.le)]

theorem armDeferral (h : Matches fine d w m) (hd : m.deferred = none) (hw : 0 < d.window)
    (s : Status) : Matches fine d
      { w with
        clock := (w.clock.arm d.window (.deferred s)).2
        rest.view.deferral := w.rest.view.deferral.take w.clock.next } (m.putOff d s) := by
  obtain ⟨i, j, hi, hj, ht, ha⟩ := h.calls
  have ht' : (w.clock.arm d.window (.deferred s)).2.timers =
      (m.putOff d s).calls w.clock.next j := by
    simp only [Clock.arm, ht, h.deadline_of_delay hw]
    exact insert_deferred i hd
  refine { h with ordered := ?_, fresh := ?_, calls := ⟨w.clock.next, j, rfl, hj, ht', ?_⟩ }
  · simp [Clock.arm, h.ordered]
  · exact Clock.fresh_arm h.fresh _ _
  · intro _ hu
    obtain ⟨u, hu⟩ := Option.isSome_iff_exists.mp hu
    have hmem : (⟨u, j, .giveUp⟩ : Timer τ Alarm) ∈ m.calls i j := mem_calls.mpr (.inr ⟨u, hu, rfl⟩)
    exact (h.fresh _ (ht.symm ▸ hmem)).ne'

theorem armTimeout (h : Matches fine d w m) (hu : m.deadline = none) (hp : 0 < d.patience) :
    Matches fine d
      { w with
        clock := (w.clock.arm d.patience .giveUp).2
        rest.view.timeout := w.rest.view.timeout.take w.clock.next }
      { m with deadline := some (m.now + d.patience), reportFirst := true } := by
  obtain ⟨i, j, hi, hj, ht, ha⟩ := h.calls
  have ht' : (w.clock.arm d.patience .giveUp).2.timers =
      ({ m with deadline := some (m.now + d.patience), reportFirst := true } :
        Watch τ).calls i w.clock.next := by
    simp only [Clock.arm, ht, h.deadline_of_delay hp]
    exact insert_giveUp j hu
  refine { h with ordered := ?_, fresh := ?_, calls := ⟨i, w.clock.next, hi, rfl, ht', ?_⟩ }
  · simp [Clock.arm, h.ordered]
  · exact Clock.fresh_arm h.fresh _ _
  · intro hs _
    obtain ⟨⟨s, t⟩, hs⟩ := Option.isSome_iff_exists.mp hs
    have hmem : (⟨t, i, .deferred s⟩ : Timer τ Alarm) ∈ m.calls i j :=
      mem_calls.mpr (.inl ⟨s, t, hs, rfl⟩)
    exact (h.fresh _ (ht.symm ▸ hmem)).ne

/-- A report is put off in place of the one that was put off before. -/
theorem putOff (h : Matches fine d w m) (hw : 0 < d.window) (s : Status) :
    Ends fine d (View.putOff (.deferred s) d.window w) (m.putOff d s) :=
  ⟨rfl, h.cancelDeferral.2.armDeferral rfl hw s⟩

/-- An assumption is timed anew. -/
theorem startTimeout (h : Matches fine d w m) (hp : 0 < d.patience) :
    Ends fine d (View.startTimeout .giveUp d.patience w)
      { m with deadline := some (m.now + d.patience), reportFirst := true } :=
  ⟨rfl, h.cancelTimeout.2.armTimeout rfl hp⟩

/-! ### What a view does -/

theorem drop (h : Matches fine d w m) : Ends fine d (View.resetFallback w) m.drop :=
  h.cancelTimeout.bind fun _ h₁ => h₁.setFallback none

theorem assume (h : Matches fine d w m) (hout : out.LooksOn fine) (hp : 0 < d.patience)
    (a : Assumption) : Ends fine d (View.assume out a w) (m.assume d a) := by
  rw [View.assume, View.current_bind, h.closed, Watch.assume]
  split
  · exact h.note _
  · have hf : Ends fine d
        (View.change (fun v : View τ => { v with fallback := some v.status }) w)
        { m with fallback := some m.status } :=
      ⟨rfl, { h with fallback := by rw [← h.status]; rfl }⟩
    refine hf.bind fun w₁ h₁ => (h₁.commit hout a.status).bind fun w₂ h₂ => ?_
    rw [View.current_bind, h₂.delays]
    exact (h₂.note _).bind fun w₃ h₃ => h₃.startTimeout hp

theorem reveal (h : Matches fine d w m) (hout : out.LooksOn fine) (hp : 0 < d.patience)
    (s : Status) : Ends fine d (View.reveal out s w) (m.reveal d s) := by
  unfold View.reveal Watch.reveal
  split
  · exact (h.assume hout hp .connecting).bind fun _ h₁ => h₁.setFallback (some s)
  · exact h.commit hout s

theorem act (h : Matches fine d w m) (hout : out.LooksOn fine) (hp : 0 < d.patience)
    (s : Status) : Ends fine d (View.act out s w) (m.act d s) := by
  have hs : w.rest.view.settles s = m.settles s := by
    rw [View.settles, Watch.settles, h.status]
  rw [View.act, View.current_bind, Watch.act, h.fallback, hs]
  split
  · exact h.reveal hout hp s
  · split
    · refine (h.note _).bind fun _ h₁ => h₁.drop.bind fun _ h₂ => ?_
      exact h₂.reveal hout hp s
    · exact (h.note _).bind fun _ h₁ => h₁.setFallback (some s)

theorem tooSoon (h : Matches fine d w m) :
    w.rest.view.tooSoon w.clock.now = m.tooSoon d := by
  rw [View.tooSoon, Watch.tooSoon, h.deferring, h.now, h.lastActed, h.delays]

theorem receive (h : Matches fine d w m) (hout : out.LooksOn fine) (hw : 0 < d.window)
    (hp : 0 < d.patience) (s : Status) : Ends fine d (View.receive out s w) (m.receive d s) := by
  rw [View.receive, View.current_bind, Watch.receive, h.closed]
  split
  · exact .pure h
  · rw [Timed.now_bind, h.tooSoon, h.delays]
    split
    · exact (h.note _).bind fun _ h₁ => h₁.putOff hw s
    · rename_i hs
      have hd : m.deferred = none := Watch.deferred_of_not_tooSoon hs
      have hm : m.pass d s = ({ m with lastActed := m.now } : Watch τ).act d s := by
        rw [Watch.pass, hd]
      rw [hm, h.now]
      exact (h.setActed m.now).bind fun _ h₁ => h₁.act hout hp s

theorem close (h : Matches fine d w m) (hm : m.Ripe d) : Ends fine d (View.close w) m.close := by
  rw [View.close, View.current_bind, h.closed]
  split
  · rename_i hc
    have hm : m.close = m := by
      obtain ⟨hd, hu, hf⟩ := hm.closed hc
      rw [Watch.close, ← hc, ← hf, ← hd, ← hu]
    rw [hm]
    exact .pure h
  · refine h.setClosed.bind fun _ h₁ => h₁.cancelDeferral.bind fun _ h₂ => ?_
    exact h₂.cancelTimeout.bind fun _ h₃ => h₃.setFallback none

/-! ### Moving time -/

theorem wait (h : Matches fine d w m) (t : τ) :
    Ends fine d (Timed.onClock (Timekeeper.moveTo t) w) (m.wait t) := by
  refine ⟨rfl, { h with now := ?_ }⟩
  show later w.clock.now t = max m.now t
  rw [later_eq_max, h.now]

theorem popDue_none (h : Matches fine d w m) {limit : Option τ} (hd : m.due? limit = none) :
    Timed.popDue limit w = (.ok none, { w with clock := w.clock.tidied }) := by
  obtain ⟨i, j, -, -, -, -, hpop⟩ := h.popDue limit
  rw [hd] at hpop
  exact Timed.popDue_apply hpop

/-- The call that is due first fires out of its slot, and is answered by what its deadline calls for.
-/
theorem claims {limit : Option τ} (h : Matches fine d w m) {t : τ} {b : Watch.Bell}
    (hd : m.due? limit = some (t, b)) : ∃ call clock,
      w.clock.popDue limit = (some call, clock) ∧ call.deadline = t ∧ call.call = b.alarm ∧
      (b.slot w.rest.view).armed = some call.serial ∧
      ∃ w₁, (∀ out : Outside τ ο, View.fire out call { w with clock } = b.answer out w₁) ∧
        Matches fine d w₁ (m.reach t b) := by
  obtain ⟨i, j, hi, hj, ht, ha, hpop⟩ := h.popDue limit
  rw [hd] at hpop
  have hn := (Watch.due?_eq_some_iff.mp hd).1
  refine ⟨⟨t, b.serial i j, b.alarm⟩, w.clock.tidied.fired _, hpop, rfl, rfl, ?_⟩
  cases b with
  | report s =>
    have hi : w.rest.view.deferral.armed = some i := by
      rw [hi, Watch.deferred_of_next? hn]
      rfl
    refine ⟨hi, _, fun out => ?_, h.fired_report hj ht hn⟩
    simp only [View.fire, View.current_bind, Watch.Bell.alarm, Watch.Bell.serial, Slot.claim?_eq, hi,
      if_true]
    rfl
  | giveUp =>
    have hj : w.rest.view.timeout.armed = some j := by
      rw [hj, Watch.deadline_of_next? hn]
      rfl
    refine ⟨hj, _, fun out => ?_, h.fired_giveUp hi ht hn⟩
    simp only [View.fire, View.current_bind, Watch.Bell.alarm, Watch.Bell.serial, Slot.claim?_eq, hj,
      if_true]
    rfl

variable [IsOrderedAddMonoid τ] {limit : Option τ}

/-- The call that is due first does what its deadline calls for. -/
theorem ring (h : Matches fine d w m) (hm : m.Ripe d) (hout : out.LooksOn fine)
    (hw : 0 < d.window) (hp : 0 < d.patience) {t : τ} {b : Watch.Bell}
    (hd : m.due? limit = some (t, b)) : ∃ call w₁,
      Timed.popDue limit w = (.ok (some call), w₁) ∧ call.deadline = t ∧ call.call = b.alarm ∧
      (b.slot w.rest.view).armed = some call.serial ∧
      Ends fine d (View.fire out call w₁) (m.ring d t b) := by
  obtain ⟨call, clock, hpop, ht, hcall, hslot, w₁, hfire, h₁⟩ := h.claims hd
  have hn := (Watch.due?_eq_some_iff.mp hd).1
  refine ⟨call, { w with clock }, Timed.popDue_apply hpop, ht, hcall, hslot, ?_⟩
  rw [hfire]
  cases b with
  | report s =>
    rw [Watch.ring, ← hm.receive_deferred hn]
    exact h₁.receive hout hw hp s
  | giveUp => exact h₁.giveUp hout (hm.open_of_deadline (Watch.deadline_of_next? hn))

theorem drain (hout : out.LooksOn fine) (hw : 0 < d.window) (hp : 0 < d.patience) {fuel : ℕ}
    (h : Matches fine d w m) (hm : m.Ripe d) (hf : m.weight < fuel) :
    Ends fine d (Timed.drain (View.fire out) limit fuel w) (m.drain d limit) := by
  induction fuel generalizing w m with
  | zero => omega
  | succ fuel ih =>
    rw [Timed.drain, Act.bind_apply]
    rcases hd : m.due? limit with _ | ⟨t, b⟩
    · rw [h.popDue_none hd, Watch.drain_of_none hd]
      exact .pure h.tidied
    · obtain ⟨call, w₁, hpop, -, -, -, hfire⟩ := h.ring hm hout hw hp hd
      have hn := (Watch.due?_eq_some_iff.mp hd).1
      have hlt := Watch.ring_weight d hn
      rw [hpop, Watch.drain_of_some hd]
      exact hfire.bind fun w₂ h₂ => ih h₂ (hm.ring hn) (by omega)

theorem advanceTo (h : Matches fine d w m) (hm : m.Ripe d) (hout : out.LooksOn fine)
    (hw : 0 < d.window) (hp : 0 < d.patience) {fuel : ℕ} (hf : 4 ≤ fuel) (t : τ) :
    Ends fine d (Timed.advanceTo (View.fire out) fuel t w) (m.advanceTo d t) := by
  have hlt := m.weight_le
  exact (drain hout hw hp h hm (by omega)).bind fun _ h₁ => h₁.wait t

/-- Running until idle fails just when the limit on firings is used up. -/
theorem drainAll (hout : out.LooksOn fine) (hw : 0 < d.window) (hp : 0 < d.patience) {n : ℕ}
    (h : Matches fine d w m) (hm : m.Ripe d) (most : ℤ) :
    (Timed.drainAll (View.fire out) most n w).1 =
        (if (m.idle d n).1 then .ok () else .error (.failure (.stillPending most))) ∧
      Matches fine d (Timed.drainAll (View.fire out) most n w).2 (m.idle d n).2 := by
  induction n generalizing w m with
  | zero => exact ⟨rfl, h⟩
  | succ n ih =>
    rw [Timed.drainAll, Act.bind_apply, Watch.idle]
    rcases hn : m.next? with _ | ⟨t, b⟩
    · rw [h.popDue_none (by rwa [Watch.due?_none_eq_next?])]
      exact ⟨rfl, h.tidied⟩
    · rw [← Watch.due?_none_eq_next?] at hn
      obtain ⟨call, w₁, hpop, -, -, -, hr, h₂⟩ := h.ring hm hout hw hp hn
      rw [Watch.due?_none_eq_next?] at hn
      rw [hpop]
      simp only [Act.bind_apply]
      rcases hf : View.fire out call w₁ with ⟨r, w₂⟩
      rw [hf] at hr h₂
      obtain rfl : r = .ok () := hr
      exact ih h₂ (hm.ring hn)

/-- At most three calls fire in a row. -/
theorem firings_le (hout : out.LooksOn fine) (hw : 0 < d.window) (hp : 0 < d.patience) {n : ℕ}
    (h : Matches fine d w m) (hm : m.Ripe d) :
    Timed.firings (View.fire out) limit n w ≤ m.weight := by
  induction n generalizing w m with
  | zero => exact Nat.zero_le _
  | succ n ih =>
    rw [Timed.firings]
    rcases hd : m.due? limit with _ | ⟨t, b⟩
    · rw [h.popDue_none hd]
      exact Nat.zero_le _
    · obtain ⟨call, w₁, hpop, -, -, -, -, h₂⟩ := h.ring hm hout hw hp hd
      have hn := (Watch.due?_eq_some_iff.mp hd).1
      have hlt := Watch.ring_weight d hn
      have := ih h₂ (hm.ring hn)
      rw [hpop]
      simp only
      omega

end Matches
end Simulation
end TunnelView
