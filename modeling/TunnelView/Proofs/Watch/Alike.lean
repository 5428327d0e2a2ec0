import Mathlib.Data.List.Forall2
import Mathlib.Data.Option.Basic
import TunnelView.Proofs.Watch.Course

/-!
# Watches that differ in details only

A watch goes by conditions and never looks at details. So two watches that are told the same, but
for details, stay the same but for details: whatever relation of statuses implies equal conditions,
and holds of what an assumption shows, is kept from one move to the next.

Key definitions: `Likeness`, `Watch.Alike`, `Move.Alike`.
Key theorems: `Watch.Alike.meet`, `Watch.Alike.meetAll`.
-/

namespace TunnelView

/-- A relation of statuses that no watch can tell apart. -/
structure Likeness (R : Status → Status → Prop) : Prop where
  condition : ∀ {s s'}, R s s' → s.condition = s'.condition
  bare : ∀ c, R (.bare c) (.bare c)

namespace Likeness

variable {R : Status → Status → Prop} {s s' : Status}

theorem assumption (hR : Likeness R) (a : Assumption) : R a.status a.status := by
  cases a <;> exact hR.bare _

theorem isReconnecting (hR : Likeness R) (hs : R s s') : s.isReconnecting = s'.isReconnecting := by
  rw [Status.isReconnecting, Status.isReconnecting, hR.condition hs]

end Likeness

variable {τ : Type} {R : Status → Status → Prop}

/-- Two moves are the same but for the status of a report. -/
inductive Move.Alike (R : Status → Status → Prop) : Move τ → Move τ → Prop
  | report {s s' : Status} (h : R s s') : Alike R (.report s) (.report s')
  | assume (a : Assumption) : Alike R (.assume a) (.assume a)
  | reset : Alike R .reset .reset
  | ring : Alike R .ring .ring
  | wait (time : τ) : Alike R (.wait time) (.wait time)

namespace Watch

/-- Two watches are the same but for the statuses in them. -/
structure Alike (R : Status → Status → Prop) (m m' : Watch τ) : Prop where
  now : m.now = m'.now
  status : R m.status m'.status
  lastActed : m.lastActed = m'.lastActed
  fallback : Option.Rel R m.fallback m'.fallback
  closed : m.closed = m'.closed
  deferred : Option.Rel (fun p q => R p.1 q.1 ∧ p.2 = q.2) m.deferred m'.deferred
  deadline : m.deadline = m'.deadline
  reportFirst : m.reportFirst = m'.reportFirst
  shown : List.Forall₂ (fun p q => p.1 = q.1 ∧ R p.2 q.2) m.shown m'.shown

namespace Alike

variable {m m' : Watch τ} {s s' : Status}

theorem start (hR : Likeness R) (now : τ) : Alike R (Watch.start now) (Watch.start now) where
  now := rfl
  status := hR.bare _
  lastActed := rfl
  fallback := .none
  closed := rfl
  deferred := .none
  deadline := rfl
  reportFirst := rfl
  shown := .nil

theorem fallback_isNone (h : Alike R m m') : m.fallback.isNone = m'.fallback.isNone := by
  have hf := h.fallback
  revert hf
  cases m.fallback <;> cases m'.fallback <;> simp

theorem deferred_isSome (h : Alike R m m') : m.deferred.isSome = m'.deferred.isSome := by
  have hd := h.deferred
  revert hd
  cases m.deferred <;> cases m'.deferred <;> simp

theorem settles (hR : Likeness R) (h : Alike R m m') (hs : R s s') :
    m.settles s = m'.settles s' := by
  simp only [Watch.settles, Status.phase, Status.isError, hR.condition hs, hR.condition h.status]

theorem commit (h : Alike R m m') (hs : R s s') : Alike R (m.commit s) (m'.commit s') :=
  { h with status := hs, shown := .cons ⟨h.now, hs⟩ h.shown }

theorem drop (h : Alike R m m') : Alike R m.drop m'.drop :=
  { h with fallback := .none, deadline := rfl }

theorem keep (h : Alike R m m') (hs : R s s') :
    Alike R { m with fallback := some s } { m' with fallback := some s' } :=
  { h with fallback := .some hs }

theorem giveUp (h : Alike R m m') : Alike R m.giveUp m'.giveUp := by
  have hf := h.fallback
  unfold Watch.giveUp
  generalize m.fallback = f at hf
  generalize m'.fallback = f' at hf
  cases hf with
  | none => exact h
  | some hs => exact commit { h with fallback := .none } hs

variable [LinearOrder τ]

theorem wait (h : Alike R m m') (t : τ) : Alike R (m.wait t) (m'.wait t) :=
  { h with now := by rw [Watch.wait, Watch.wait, h.now] }

/-- The same deadline comes first. -/
theorem next? (h : Alike R m m') : m.next? = none ∧ m'.next? = none ∨
    (∃ t s s', R s s' ∧ m.next? = some (t, .report s) ∧ m'.next? = some (t, .report s')) ∨
    ∃ t, m.next? = some (t, .giveUp) ∧ m'.next? = some (t, .giveUp) := by
  have hd := h.deferred
  have hl : ∀ t u, m.reportLeads t u = m'.reportLeads t u := fun t u => by
    rw [reportLeads, reportLeads, h.reportFirst]
  rcases hs : m.deferred with _ | ⟨s, t⟩ <;> rcases hs' : m'.deferred with _ | ⟨s', t'⟩ <;>
    rw [hs, hs'] at hd
  · cases hu : m.deadline with
    | none => exact .inl (by simp [Watch.next?, hs, hs', ← h.deadline, hu])
    | some u => exact .inr (.inr ⟨u, by simp [Watch.next?, hs, hs', ← h.deadline, hu]⟩)
  · cases hd
  · cases hd
  · obtain ⟨hr, rfl⟩ : R s s' ∧ t = t' := by cases hd; assumption
    cases hu : m.deadline with
    | none =>
      exact .inr (.inl ⟨t, s, s', hr, by simp [Watch.next?, hs, hs', ← h.deadline, hu]⟩)
    | some u =>
      cases hlead : m.reportLeads t u with
      | true =>
        have hlead' := (hl t u).symm.trans hlead
        exact .inr (.inl ⟨t, s, s', hr,
          by simp [Watch.next?, hs, hs', ← h.deadline, hu, hlead, hlead']⟩)
      | false =>
        have hlead' := (hl t u).symm.trans hlead
        exact .inr (.inr ⟨u, by simp [Watch.next?, hs, hs', ← h.deadline, hu, hlead, hlead']⟩)

theorem due?_eq_none (h : Alike R m m') (limit : Option τ) :
    m.due? limit = none ↔ m'.due? limit = none := by
  obtain ⟨hn, hn'⟩ | ⟨t, s, s', -, hn, hn'⟩ | ⟨t, hn, hn'⟩ := h.next? <;>
    simp [Watch.due?, hn, hn', Option.filter]

theorem allows_iff (h : Alike R m m') {move move' : Move τ} (hmove : move.Alike R move') :
    m.Allows move ↔ m'.Allows move' := by
  cases hmove with
  | ring => exact not_congr (by rw [← due?_none_eq_next?, ← due?_none_eq_next?, h.due?_eq_none])
  | wait time => exact h.due?_eq_none (some time)
  | _ => exact Iff.rfl

variable [AddCommGroup τ] {d : Delays τ}

omit [LinearOrder τ] in
theorem assume (hR : Likeness R) (h : Alike R m m') (a : Assumption) :
    Alike R (m.assume d a) (m'.assume d a) := by
  unfold Watch.assume
  by_cases hc : m.closed
  · rw [if_pos hc, if_pos (h.closed ▸ hc)]
    exact h
  · rw [if_neg hc, if_neg (h.closed ▸ hc)]
    have hcommit := (h.keep h.status).commit (hR.assumption a)
    exact { hcommit with deadline := by rw [h.now], reportFirst := rfl }

omit [LinearOrder τ] in
theorem reveal (hR : Likeness R) (h : Alike R m m') (hs : R s s') :
    Alike R (m.reveal d s) (m'.reveal d s') := by
  rw [Watch.reveal, Watch.reveal, hR.isReconnecting hs]
  split
  · exact (h.assume hR .connecting).keep hs
  · exact h.commit hs

omit [LinearOrder τ] in
theorem pass (hR : Likeness R) (h : Alike R m m') (hs : R s s') :
    Alike R (m.pass d s) (m'.pass d s') := by
  have h₁ : Alike R { m with deferred := none, lastActed := m.now }
      { m' with deferred := none, lastActed := m'.now } :=
    { h with deferred := .none, lastActed := h.now }
  rw [Watch.pass, Watch.pass, Watch.act, Watch.act, h₁.fallback_isNone, h₁.settles hR hs]
  split
  · exact h₁.reveal hR hs
  · split
    · exact h₁.drop.reveal hR hs
    · exact h₁.keep hs

omit [LinearOrder τ] in
theorem putOff (h : Alike R m m') (hs : R s s') : Alike R (m.putOff d s) (m'.putOff d s') :=
  { h with deferred := .some ⟨hs, by rw [h.now]⟩, reportFirst := rfl }

theorem tooSoon (h : Alike R m m') : m.tooSoon d = m'.tooSoon d := by
  rw [Watch.tooSoon, Watch.tooSoon, h.now, h.lastActed, h.deferred_isSome]

theorem receive (hR : Likeness R) (h : Alike R m m') (hs : R s s') :
    Alike R (m.receive d s) (m'.receive d s') := by
  rw [Watch.receive, Watch.receive, h.closed, h.tooSoon]
  split
  · exact h
  · split
    · exact h.putOff hs
    · exact h.pass hR hs

/-- **Details make no difference.** Watches that are alike stay alike when they are told alike. -/
theorem meet (hR : Likeness R) (h : Alike R m m') {move move' : Move τ}
    (hmove : move.Alike R move') : Alike R (m.meet d move) (m'.meet d move') := by
  cases hmove with
  | report hs => exact h.receive hR hs
  | assume a => exact h.assume hR a
  | reset => exact h.drop
  | ring =>
    obtain ⟨hn, hn'⟩ | ⟨t, s, s', hs, hn, hn'⟩ | ⟨t, hn, hn'⟩ := h.next? <;>
      rw [Watch.meet, Watch.meet, hn, hn']
    · exact h
    · exact (h.wait t).pass hR hs
    · exact giveUp { h.wait t with deadline := rfl }
  | wait time => exact h.wait time

/-- The same reports pass the quiet window. -/
theorem passes (h : Alike R m m') {move move' : Move τ} (hmove : move.Alike R move') :
    Option.Rel R (m.passes d move) (m'.passes d move') := by
  cases hmove with
  | report hs =>
    rw [Watch.passes, Watch.passes, h.closed, h.tooSoon]
    split
    · exact .none
    · exact .some hs
  | ring =>
    obtain ⟨hn, hn'⟩ | ⟨t, s, s', hs, hn, hn'⟩ | ⟨t, hn, hn'⟩ := h.next? <;>
      rw [Watch.passes, Watch.passes, hn, hn']
    · exact .none
    · exact .some hs
    · exact .none
  | _ => exact .none

theorem allowsAll_iff (hR : Likeness R) (h : Alike R m m') {moves moves' : List (Move τ)}
    (hmoves : List.Forall₂ (Move.Alike R) moves moves') :
    m.AllowsAll d moves ↔ m'.AllowsAll d moves' := by
  induction hmoves generalizing m m' with
  | nil => exact Iff.rfl
  | cons hmove _ ih => exact and_congr (h.allows_iff hmove) (ih (h.meet hR hmove))

theorem meetAll (hR : Likeness R) (h : Alike R m m') {moves moves' : List (Move τ)}
    (hmoves : List.Forall₂ (Move.Alike R) moves moves') :
    Alike R (m.meetAll d moves) (m'.meetAll d moves') := by
  induction hmoves generalizing m m' with
  | nil => exact h
  | cons hmove _ ih => exact ih (h.meet hR hmove)

end Alike
end Watch
end TunnelView
