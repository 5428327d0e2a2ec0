import Mathlib.Algebra.Order.Group.Basic
import TunnelView.View

/-!
# The watch: a view with two deadlines

A watch is what is left of a view without a clock that holds calls: the time, the status on show,
the fallback, at most one report that was put off with its deadline, and at most one deadline of the
assumption on show. When a deadline comes, the report is acted on or the assumption given up; of two
deadlines at one time the one set first comes first. There are no serial numbers, nothing is let go
of late, and a report that was put off is acted on without a second look at the quiet window.

Key definitions: `Watch`, `Watch.receive`, `Watch.assume`, `Watch.ring`, `Watch.drain`,
`Watch.Ripe`, `Watch.Sound`, `Watch.Lasting`.
Key theorems: `Watch.ring_weight`, `Watch.Ripe.receive_deferred`, `Watch.Sound.receive`,
`Watch.Sound.ring`, `Watch.Lasting.drain`.
-/

namespace TunnelView

/-- A view with two deadlines. -/
structure Watch (τ : Type) where
  now : τ
  status : Status
  lastActed : τ
  fallback : Option Status := none
  closed : Bool := false
  /-- The report that was put off, and when it is acted on. -/
  deferred : Option (Status × τ) := none
  /-- When the assumption on show is given up. -/
  deadline : Option τ := none
  /-- Of two deadlines, whether that of the report was set first. -/
  reportFirst : Bool := false
  /-- What was shown, and when, the newest first; no step looks at it. -/
  shown : List (τ × Status) := []

namespace Watch

/-- What a deadline calls for. -/
inductive Bell where
  /-- To act on a report. -/
  | report (s : Status)
  /-- To give an assumption up. -/
  | giveUp

variable {τ : Type}

/-- Whether a report settles the assumption on show. -/
def settles (m : Watch τ) (s : Status) : Bool :=
  s.phase == m.status.phase || s.isError

/-- A watch of a service about which nothing is known yet. -/
def start (now : τ) : Watch τ :=
  { now, status := .bare .disconnected, lastActed := now }

/-- Shows a status. -/
def commit (s : Status) (m : Watch τ) : Watch τ :=
  { m with status := s, shown := (m.now, s) :: m.shown }

/-- Drops the assumption on show. -/
def drop (m : Watch τ) : Watch τ := { m with fallback := none, deadline := none }

/-- Nothing is waited for any more, and nothing comes in. -/
def close (m : Watch τ) : Watch τ :=
  { m with closed := true, fallback := none, deferred := none, deadline := none }

/-- Shows the fallback again. -/
def giveUp (m : Watch τ) : Watch τ :=
  match m.fallback with
  | none => m
  | some s => commit s { m with fallback := none }

section Steps

variable [AddCommGroup τ] [LinearOrder τ] (d : Delays τ)

/-- Shows what an action should lead to; what it replaces becomes the fallback. -/
def assume (a : Assumption) (m : Watch τ) : Watch τ :=
  if m.closed then m
  else
    { commit a.status { m with fallback := some m.status } with
      deadline := some (m.now + d.patience)
      reportFirst := true }

/-- Shows a report on which nothing is assumed any more. -/
def reveal (s : Status) (m : Watch τ) : Watch τ :=
  if s.isReconnecting then { assume d .connecting m with fallback := some s } else commit s m

/-- Acts on a report. -/
def act (s : Status) (m : Watch τ) : Watch τ :=
  if m.fallback.isNone then reveal d s m
  else if m.settles s then reveal d s m.drop
  else { m with fallback := some s }

/-- Lets a report pass the quiet window. -/
def pass (s : Status) (m : Watch τ) : Watch τ :=
  act d s { m with deferred := none, lastActed := m.now }

/-- Whether a report comes too soon to act on. -/
def tooSoon (m : Watch τ) : Bool := m.now - m.lastActed < d.window || m.deferred.isSome

/-- Puts a report off. -/
def putOff (s : Status) (m : Watch τ) : Watch τ :=
  { m with deferred := some (s, m.now + d.window), reportFirst := false }

/-- Takes in a report. -/
def receive (s : Status) (m : Watch τ) : Watch τ :=
  if m.closed then m
  else if m.tooSoon d then m.putOff d s
  else m.pass d s

/-- Whether the deadline of a report comes before another. -/
def reportLeads (m : Watch τ) (report other : τ) : Bool :=
  report < other ∨ report = other ∧ m.reportFirst

/-- The deadline that comes first. -/
def next? (m : Watch τ) : Option (τ × Bell) :=
  match m.deferred, m.deadline with
  | none, none => none
  | some (s, t), none => some (t, .report s)
  | none, some u => some (u, .giveUp)
  | some (s, t), some u => if m.reportLeads t u then some (t, .report s) else some (u, .giveUp)

/-- The deadline that comes first, unless it is past the limit. -/
def due? (limit : Option τ) (m : Watch τ) : Option (τ × Bell) :=
  m.next?.filter fun next => limit.all fun limit => next.1 ≤ limit

/-- Goes to a time, never back. -/
def wait (time : τ) (m : Watch τ) : Watch τ := { m with now := max m.now time }

/-- A deadline is gone when it has come, before anything is done about it. -/
def reach (time : τ) (b : Bell) (m : Watch τ) : Watch τ :=
  match b with
  | .report _ => { m.wait time with deferred := none }
  | .giveUp => { m.wait time with deadline := none }

/-- What happens when a deadline comes. -/
def ring (time : τ) (b : Bell) (m : Watch τ) : Watch τ :=
  match b with
  | .report s => (m.wait time).pass d s
  | .giveUp => giveUp { m.wait time with deadline := none }

/-- How many deadlines can still come: a report may set one more. -/
def weight (m : Watch τ) : ℕ :=
  2 * m.deferred.isSome.toNat + m.deadline.isSome.toNat

end Steps

/-! ### Which deadline comes first -/

section Order

variable {τ : Type}

theorem weight_le (m : Watch τ) : m.weight ≤ 3 := by
  have h1 := m.deferred.isSome.toNat_le
  have h2 := m.deadline.isSome.toNat_le
  unfold weight
  omega

@[simp] theorem giveUp_deferred (m : Watch τ) : m.giveUp.deferred = m.deferred := by
  unfold giveUp
  split <;> rfl

@[simp] theorem giveUp_closed (m : Watch τ) : m.giveUp.closed = m.closed := by
  unfold giveUp
  split <;> rfl

@[simp] theorem giveUp_deadline (m : Watch τ) : m.giveUp.deadline = m.deadline := by
  unfold giveUp
  split <;> rfl

variable [LinearOrder τ] {m : Watch τ} {t u : τ} {s : Status} {b : Bell}

theorem deferred_of_next? (h : m.next? = some (t, .report s)) : m.deferred = some (s, t) := by
  unfold next? at h
  split at h <;> try split at h
  all_goals simp_all

theorem deadline_of_next? (h : m.next? = some (t, .giveUp)) : m.deadline = some t := by
  unfold next? at h
  split at h <;> try split at h
  all_goals simp_all

theorem reportLeads_iff : m.reportLeads t u = true ↔ t < u ∨ t = u ∧ m.reportFirst = true := by
  simp [reportLeads]

theorem le_deferred_of_next? (h : m.next? = some (t, b)) (hs : m.deferred = some (s, u)) :
    t ≤ u := by
  rcases hv : m.deadline with _ | v
  · simp_all [next?]
  · cases hl : m.reportLeads u v
    · have : ¬(u < v) := fun huv => by simp [reportLeads, huv] at hl
      simp_all [next?]
    · simp_all [next?]

theorem le_deadline_of_next? (h : m.next? = some (t, b)) (hu : m.deadline = some u) : t ≤ u := by
  rcases hs : m.deferred with _ | ⟨s, v⟩
  · simp_all [next?]
  · cases hl : m.reportLeads v u
    · simp_all [next?]
    · have : v ≤ u := (reportLeads_iff.mp hl).elim le_of_lt fun h => h.1.le
      simp_all [next?]

theorem next?_eq_none_iff : m.next? = none ↔ m.deferred = none ∧ m.deadline = none := by
  unfold next?
  split <;> simp_all
  split <;> simp

theorem due?_none_eq_next? (m : Watch τ) : m.due? none = m.next? := by
  cases h : m.next? <;> simp [due?, h, Option.filter]

theorem due?_eq_some_iff {limit : Option τ} :
    m.due? limit = some (t, b) ↔ m.next? = some (t, b) ∧ ∀ l ∈ limit, t ≤ l := by
  cases limit <;> simp [due?, Option.filter_eq_some_iff]

theorem lt_deferred_of_due?_eq_none {l : τ} (h : m.due? (some l) = none)
    (hs : m.deferred = some (s, u)) : l < u := by
  rcases hn : m.next? with _ | ⟨t, b⟩
  · simp [next?_eq_none_iff.mp hn] at hs
  · have ht : l < t := by simpa [due?, hn, Option.filter] using h
    exact ht.trans_le (le_deferred_of_next? hn hs)

theorem lt_deadline_of_due?_eq_none {l : τ} (h : m.due? (some l) = none)
    (hu : m.deadline = some u) : l < u := by
  rcases hn : m.next? with _ | ⟨t, b⟩
  · simp [next?_eq_none_iff.mp hn] at hu
  · have ht : l < t := by simpa [due?, hn, Option.filter] using h
    exact ht.trans_le (le_deadline_of_next? hn hu)

end Order

/-! ### What holds of a watch however it came about -/

section Ripe

variable [AddCommGroup τ] [LinearOrder τ] {d : Delays τ} {m : Watch τ} {s : Status} {t : τ}

theorem deferred_of_not_tooSoon (h : ¬m.tooSoon d) : m.deferred = none :=
  Option.not_isSome_iff_eq_none.mp fun hs => h (by rw [tooSoon, hs, Bool.or_true])

/-- What a watch needs to act on its deadlines: a report that was put off is no longer too soon when
its deadline comes, and nothing is waited for once the watch is closed. -/
structure Ripe (d : Delays τ) (m : Watch τ) : Prop where
  acted : m.lastActed ≤ m.now
  gate : ∀ s t, m.deferred = some (s, t) → m.lastActed + d.window ≤ t
  closed : m.closed → m.deferred = none ∧ m.deadline = none ∧ m.fallback = none

namespace Ripe

theorem open_of_deferred (h : Ripe d m) (hs : m.deferred = some (s, t)) : m.closed = false := by
  by_contra hc
  simp [(h.closed (by simpa using hc)).1] at hs

theorem open_of_deadline (h : Ripe d m) (hu : m.deadline = some t) : m.closed = false := by
  by_contra hc
  simp [(h.closed (by simpa using hc)).2] at hu

theorem start (now : τ) : Ripe d (Watch.start now : Watch τ) := by
  constructor <;> simp [Watch.start]

theorem drop (h : Ripe d m) : Ripe d m.drop :=
  { h with closed := fun hc => ⟨(h.closed hc).1, rfl, rfl⟩ }

theorem close (h : Ripe d m) : Ripe d m.close where
  acted := h.acted
  gate _ _ hs := by contradiction
  closed _ := ⟨rfl, rfl, rfl⟩

theorem commit (h : Ripe d m) (s : Status) : Ripe d (Watch.commit s m) := { h with }

theorem keep (h : Ripe d m) (hc : m.closed = false) (f : Option Status) :
    Ripe d { m with fallback := f } :=
  { h with closed := fun h' => by rw [hc] at h'; contradiction }

theorem assume (h : Ripe d m) (a : Assumption) : Ripe d (m.assume d a) := by
  unfold Watch.assume
  by_cases hc : m.closed
  · rw [if_pos hc]
    exact h
  · rw [if_neg hc]
    exact { h with closed := fun h' => absurd h' hc }

omit [LinearOrder τ] in
theorem act_acted (s : Status) (m : Watch τ) :
    (m.act d s).lastActed = m.lastActed ∧ (m.act d s).now = m.now ∧
      (m.act d s).deferred = m.deferred ∧ (m.act d s).closed = m.closed := by
  unfold Watch.act Watch.reveal Watch.assume
  split_ifs <;> exact ⟨rfl, rfl, rfl, rfl⟩

theorem pass (hc : m.closed = false) (s : Status) : Ripe d (m.pass d s) := by
  obtain ⟨hacted, hnow, hdeferred, hclosed⟩ :=
    act_acted (d := d) s { m with deferred := none, lastActed := m.now }
  refine ⟨(hacted.trans hnow.symm).le, fun s' t hs => ?_, fun h' => ?_⟩
  · rw [Watch.pass, hdeferred] at hs
    contradiction
  · rw [Watch.pass, hclosed, hc] at h'
    contradiction

theorem wait (h : Ripe d m) (t : τ) : Ripe d (m.wait t) :=
  { h with acted := h.acted.trans (le_max_left ..) }

theorem giveUp (h : Ripe d m) : Ripe d m.giveUp := by
  unfold Watch.giveUp
  cases m.fallback with
  | none => exact h
  | some s => exact { h with closed := fun hc => ⟨(h.closed hc).1, (h.closed hc).2.1, rfl⟩ }

theorem reach (h : Ripe d m) (t : τ) (b : Bell) : Ripe d (m.reach t b) := by
  cases b with
  | report s => exact { h.wait t with gate := nofun, closed := fun hc => ⟨rfl, (h.closed hc).2⟩ }
  | giveUp => exact { h.wait t with closed := fun hc => ⟨(h.closed hc).1, rfl, (h.closed hc).2.2⟩ }

theorem ring {b : Bell} (h : Ripe d m) (hn : m.next? = some (t, b)) : Ripe d (m.ring d t b) := by
  cases b with
  | report s => exact pass (m := m.wait t) (h.open_of_deferred (deferred_of_next? hn)) s
  | giveUp => exact (h.reach t .giveUp).giveUp

variable [IsOrderedAddMonoid τ]

theorem putOff (h : Ripe d m) (hc : m.closed = false) (s : Status) : Ripe d (m.putOff d s) :=
  { h with
    gate := fun s' t ht => by
      obtain ⟨-, rfl⟩ := Prod.mk.inj (Option.some.inj ht)
      show m.lastActed + d.window ≤ m.now + d.window
      gcongr
      exact h.acted
    closed := fun h' => by rw [Watch.putOff, hc] at h'; contradiction }

theorem receive (h : Ripe d m) (s : Status) : Ripe d (m.receive d s) := by
  unfold Watch.receive
  by_cases hc : m.closed
  · rw [if_pos hc]
    exact h
  · rw [if_neg hc]
    have hopen : m.closed = false := Bool.eq_false_iff.mpr hc
    split
    · exact h.putOff hopen s
    · exact pass hopen s

/-- When its deadline comes, a report is no longer too soon. -/
theorem not_tooSoon (h : Ripe d m) (hn : m.next? = some (t, .report s)) :
    Watch.tooSoon d { m.wait t with deferred := none } = false := by
  have hgate : m.lastActed + d.window ≤ max m.now t :=
    (h.gate s t (deferred_of_next? hn)).trans (le_max_right ..)
  have hs : ¬(max m.now t - m.lastActed < d.window) := by
    rwa [not_lt, le_sub_iff_add_le']
  simp [Watch.tooSoon, Watch.wait, hs]

/-- A report whose deadline comes is never put off once more. -/
theorem receive_deferred (h : Ripe d m) (hn : m.next? = some (t, .report s)) :
    Watch.receive d s { m.wait t with deferred := none } = (m.wait t).pass d s := by
  have hc : (m.wait t).closed = false := h.open_of_deferred (deferred_of_next? hn)
  rw [Watch.receive, h.not_tooSoon hn]
  simp [hc, Watch.pass]

end Ripe
end Ripe

/-! ### What holds of a watch at any time -/

section Sound

variable [AddCommGroup τ] [LinearOrder τ] {d : Delays τ} {m : Watch τ} {s : Status} {t : τ}

/-- What holds of a watch at any time: no deadline is overdue or further away than its delay, a
report that was put off is no longer too soon when its deadline comes, there is a fallback just as
long as an assumption is timed, and then the status on show is that of an assumption. -/
structure Sound (d : Delays τ) (m : Watch τ) : Prop where
  acted : m.lastActed ≤ m.now
  deferred : ∀ s t, m.deferred = some (s, t) →
    m.now ≤ t ∧ t ≤ m.now + d.window ∧ m.lastActed + d.window ≤ t
  deadline : ∀ t, m.deadline = some t → m.now ≤ t ∧ t ≤ m.now + d.patience
  timed : m.fallback.isSome = m.deadline.isSome
  assumed : m.fallback.isSome → ∃ a : Assumption, m.status = a.status
  closed : m.closed → m.deferred = none ∧ m.deadline = none

theorem Sound.start (now : τ) : Sound d (start now : Watch τ) := by
  constructor <;> simp [Watch.start]

theorem Sound.ripe (h : Sound d m) : Ripe d m where
  acted := h.acted
  gate s t hs := (h.deferred s t hs).2.2
  closed hc := by
    obtain ⟨hd, hu⟩ := h.closed hc
    have hf : m.fallback.isSome = false := by rw [h.timed, hu]; rfl
    exact ⟨hd, hu, Option.isNone_iff_eq_none.mp (Option.isSome_eq_false_iff.mp hf)⟩

theorem Sound.drop (h : Sound d m) : Sound d m.drop where
  acted := h.acted
  deferred := h.deferred
  deadline := fun _ ht => by contradiction
  timed := rfl
  assumed := fun hf => by contradiction
  closed := fun hc => ⟨(h.closed hc).1, rfl⟩

theorem Sound.close (h : Sound d m) : Sound d m.close where
  acted := h.acted
  deferred := fun _ _ hs => by contradiction
  deadline := fun _ ht => by contradiction
  timed := rfl
  assumed := fun hf => by contradiction
  closed := fun _ => ⟨rfl, rfl⟩

theorem Sound.commit (h : Sound d m) (hf : m.fallback = none) (s : Status) :
    Sound d (commit s m) :=
  { h with assumed := fun hs => by rw [Watch.commit, hf] at hs; contradiction }

theorem Sound.store (h : Sound d m) (hf : m.fallback.isSome) (s : Status) :
    Sound d { m with fallback := some s } :=
  { h with
    timed := by rw [← h.timed, hf]; rfl
    assumed := fun _ => h.assumed hf }

theorem Sound.fallback_of_deadline (h : Sound d m) (hu : m.deadline = some t) :
    m.fallback.isSome := by
  rw [h.timed, hu]; rfl

variable [IsOrderedAddMonoid τ]

theorem Sound.assume (h : Sound d m) (hp : 0 < d.patience) (a : Assumption) :
    Sound d (m.assume d a) := by
  unfold Watch.assume
  split
  · exact h
  · rename_i hc
    exact { h with
      deadline := fun t ht => by
        obtain rfl := Option.some.inj ht
        exact ⟨le_add_of_nonneg_right hp.le, le_rfl⟩
      timed := rfl
      assumed := fun _ => ⟨a, rfl⟩
      closed := fun h => absurd h hc }

theorem Sound.reveal (h : Sound d m) (hp : 0 < d.patience) (hf : m.fallback = none)
    (hc : m.closed = false) (s : Status) : Sound d (m.reveal d s) := by
  unfold Watch.reveal
  split
  · refine (h.assume hp .connecting).store ?_ s
    simp [Watch.assume, hc, Watch.commit]
  · exact h.commit hf s

theorem Sound.act (h : Sound d m) (hp : 0 < d.patience) (hc : m.closed = false) (s : Status) :
    Sound d (m.act d s) := by
  unfold Watch.act
  split
  · rename_i hf
    exact h.reveal hp (by simpa using hf) hc s
  · rename_i hf
    split
    · exact h.drop.reveal hp rfl hc s
    · exact h.store (by simpa [Option.isSome_iff_ne_none] using hf) s

theorem Sound.pass (h : Sound d m) (hp : 0 < d.patience) (hc : m.closed = false) (s : Status) :
    Sound d (m.pass d s) := by
  have hm : Sound d { m with deferred := none, lastActed := m.now } :=
    { h with acted := le_rfl, deferred := by simp, closed := fun hc => ⟨rfl, (h.closed hc).2⟩ }
  exact hm.act hp hc s

theorem Sound.putOff (h : Sound d m) (hw : 0 < d.window) (hc : m.closed = false) (s : Status) :
    Sound d (m.putOff d s) :=
  { h with
    deferred := fun s' t ht => by
      obtain ⟨-, rfl⟩ := Prod.mk.inj (Option.some.inj ht)
      have hacted : m.lastActed + d.window ≤ m.now + d.window := by gcongr; exact h.acted
      exact ⟨le_add_of_nonneg_right hw.le, le_rfl, hacted⟩
    closed := fun h' => by rw [Watch.putOff, hc] at h'; contradiction }

theorem Sound.receive (h : Sound d m) (hw : 0 < d.window) (hp : 0 < d.patience) (s : Status) :
    Sound d (m.receive d s) := by
  unfold Watch.receive
  split
  · exact h
  · rename_i hc
    have hc : m.closed = false := by simpa using hc
    split
    · exact h.putOff hw hc s
    · exact h.pass hp hc s

theorem Sound.wait (h : Sound d m) (hd : ∀ s u, m.deferred = some (s, u) → t ≤ u)
    (hu : ∀ u, m.deadline = some u → t ≤ u) : Sound d (m.wait t) := by
  have hn : m.now ≤ max m.now t := le_max_left ..
  refine ⟨h.acted.trans hn, fun s u hs => ?_, fun u hu' => ?_, h.timed, h.assumed, h.closed⟩
  · obtain ⟨h1, h2, h3⟩ := h.deferred s u hs
    exact ⟨max_le h1 (hd s u hs), h2.trans (by simp only [Watch.wait]; gcongr), h3⟩
  · obtain ⟨h1, h2⟩ := h.deadline u hu'
    exact ⟨max_le h1 (hu u hu'), h2.trans (by simp only [Watch.wait]; gcongr)⟩

omit [IsOrderedAddMonoid τ] in
/-- The fallback is shown again when the assumption on show is given up. -/
theorem ring_giveUp (d : Delays τ) (hf : m.fallback = some s) (t : τ) :
    m.ring d t .giveUp = Watch.commit s (m.wait t).drop := by
  simp only [Watch.ring, Watch.giveUp, Watch.wait, hf]
  rfl

theorem Sound.ring {b : Bell} (h : Sound d m) (hp : 0 < d.patience)
    (hn : m.next? = some (t, b)) : Sound d (m.ring d t b) := by
  have hw := h.wait (fun _ _ => le_deferred_of_next? hn) (fun _ => le_deadline_of_next? hn)
  cases b with
  | report s => exact hw.pass hp (h.ripe.open_of_deferred (deferred_of_next? hn)) s
  | giveUp =>
    obtain ⟨s, hs⟩ := Option.isSome_iff_exists.mp (h.fallback_of_deadline (deadline_of_next? hn))
    rw [ring_giveUp d hs]
    exact hw.drop.commit rfl s

end Sound


/-! ### Until nothing is due -/

section Drain

variable [AddCommGroup τ] [LinearOrder τ] (d : Delays τ)

omit [LinearOrder τ] in
@[simp] theorem pass_deferred (s : Status) (m : Watch τ) : (m.pass d s).deferred = none := by
  unfold pass act reveal assume
  split_ifs <;> rfl

/-- A deadline that has come is gone, and only that of a report sets another. -/
theorem ring_weight {m : Watch τ} {t : τ} {b : Bell} (h : m.next? = some (t, b)) :
    (m.ring d t b).weight < m.weight := by
  cases b with
  | report s =>
    have := ((m.wait t).pass d s).deadline.isSome.toNat_le
    simp only [weight, ring, pass_deferred, deferred_of_next? h, Option.isSome_none,
      Option.isSome_some, Bool.toNat_true, Bool.toNat_false]
    omega
  | giveUp =>
    simp only [weight, ring, giveUp_deferred, giveUp_deadline, deadline_of_next? h, wait]
    simp

omit [LinearOrder τ] in
@[simp] theorem assume_closed (a : Assumption) (m : Watch τ) :
    (m.assume d a).closed = m.closed := by
  unfold assume
  split_ifs <;> rfl

omit [LinearOrder τ] in
@[simp] theorem pass_closed (s : Status) (m : Watch τ) : (m.pass d s).closed = m.closed := by
  unfold pass act reveal assume
  split_ifs <;> rfl

@[simp] theorem receive_closed (s : Status) (m : Watch τ) :
    (m.receive d s).closed = m.closed := by
  unfold receive
  split_ifs
  · rfl
  · rfl
  · exact pass_closed d s m

@[simp] theorem ring_closed (t : τ) (b : Bell) (m : Watch τ) :
    (m.ring d t b).closed = m.closed := by
  cases b with
  | report s => exact pass_closed d s _
  | giveUp => exact giveUp_closed _

/-- What is left when all that is due by the limit has come. -/
def drain (limit : Option τ) (m : Watch τ) : Watch τ :=
  match _h : m.due? limit with
  | none => m
  | some (t, b) => drain limit (m.ring d t b)
termination_by m.weight
decreasing_by exact ring_weight d (due?_eq_some_iff.mp _h).1

/-- Goes to a time, with all that is due by then. -/
def advanceTo (time : τ) (m : Watch τ) : Watch τ := (m.drain d (some time)).wait time

/-- What is left when so many deadlines have come, and whether one look more found none. -/
def idle : ℕ → Watch τ → Bool × Watch τ
  | 0, m => (false, m)
  | n + 1, m =>
    match m.next? with
    | none => (true, m)
    | some (t, b) => idle n (m.ring d t b)

variable {d}

theorem drain_of_none {limit : Option τ} {m : Watch τ} (h : m.due? limit = none) :
    m.drain d limit = m := by
  unfold drain
  split <;> simp_all

theorem drain_of_some {limit : Option τ} {m : Watch τ} {t : τ} {b : Bell}
    (h : m.due? limit = some (t, b)) : m.drain d limit = (m.ring d t b).drain d limit := by
  rw [drain]
  split <;> simp_all

theorem due?_drain (limit : Option τ) (m : Watch τ) : (m.drain d limit).due? limit = none := by
  fun_induction Watch.drain d limit m with
  | case1 m h => exact h
  | case2 m t b h ih => exact ih

theorem next?_drain (m : Watch τ) : (m.drain d none).next? = none := by
  rw [← due?_none_eq_next?]
  exact due?_drain none m

/-- A limit of more than the deadlines that can come is not met. -/
theorem idle_eq_drain {n : ℕ} {m : Watch τ} (h : m.weight < n) :
    m.idle d n = (true, m.drain d none) := by
  induction n generalizing m with
  | zero => omega
  | succ n ih =>
    rw [idle]
    split
    · rw [drain_of_none (by rwa [due?_none_eq_next?])]
    · rename_i t b hn
      have := ring_weight d hn
      rw [ih (by omega), ← drain_of_some (by rwa [due?_none_eq_next?])]

variable (d) in
/-- What lasts while time passes: no deadline that comes puts an end to it, nor does waiting for the
next one. -/
structure Lasting (P : Watch τ → Prop) : Prop where
  ring : ∀ {m t b}, P m → m.next? = some (t, b) → P (m.ring d t b)
  wait : ∀ {m t}, P m → m.due? (some t) = none → P (m.wait t)

namespace Lasting

variable {P : Watch τ → Prop} (hP : Lasting d P) {m : Watch τ}

include hP

theorem drain (h : P m) (limit : Option τ) : P (m.drain d limit) := by
  fun_induction Watch.drain d limit m with
  | case1 m hn => exact h
  | case2 m t b hn ih => exact ih (hP.ring h (due?_eq_some_iff.mp hn).1)

theorem advanceTo (h : P m) (time : τ) : P (m.advanceTo d time) :=
  hP.wait (hP.drain h (some time)) (due?_drain ..)

theorem idle (h : P m) (n : ℕ) : P (m.idle d n).2 := by
  induction n generalizing m with
  | zero => exact h
  | succ n ih =>
    rw [Watch.idle]
    split
    · exact h
    · rename_i hn
      exact ih (hP.ring h hn)

end Lasting

theorem lasting_closed (c : Bool) : Lasting d fun m : Watch τ => m.closed = c :=
  ⟨fun h _ => (ring_closed ..).trans h, fun h _ => h⟩

@[simp] theorem drain_closed (limit : Option τ) (m : Watch τ) :
    (m.drain d limit).closed = m.closed :=
  (lasting_closed m.closed).drain rfl limit

@[simp] theorem idle_closed (n : ℕ) (m : Watch τ) : (m.idle d n).2.closed = m.closed :=
  (lasting_closed m.closed).idle rfl n

theorem Ripe.lasting : Lasting d (Ripe d) := ⟨Ripe.ring, fun h _ => h.wait _⟩

variable [IsOrderedAddMonoid τ] {m : Watch τ}

theorem Sound.lasting (hp : 0 < d.patience) : Lasting d (Sound d) where
  ring h hn := h.ring hp hn
  wait h hn := h.wait (fun _ _ hs => (lt_deferred_of_due?_eq_none hn hs).le)
    fun _ hu => (lt_deadline_of_due?_eq_none hn hu).le

end Drain
end Watch
end TunnelView
