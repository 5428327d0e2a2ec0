import Mathlib.Data.Int.Notation
import Mathlib.Data.List.Forall2
import Mathlib.Data.Option.Basic
import TunnelView.View

/-!
# Two clocks abreast

A clock never looks at the statuses in its calls. So two clocks that are the same but for statuses
which may stand for each other (`Kindred`) stay so: the same calls are put on them and let go of, and
the same call falls due.

Key definitions: `Kindred`, `Clock.Alike`.
Key theorems: `Clock.Alike.popDue`, `Slot.cancel_alike`, `Slot.schedule_alike`.
-/

namespace TunnelView

variable {τ α α' : Type}

/-- A relation of statuses that no view can tell apart. -/
structure Kindred (R : Status → Status → Prop) : Prop where
  condition : ∀ {s s'}, R s s' → s.condition = s'.condition
  assumption : ∀ a : Assumption, R a.status a.status

/-- The same alarm but for the status of a report. -/
inductive Alarm.Alike (R : Status → Status → Prop) : Alarm → Alarm → Prop
  | deferred {s s' : Status} (h : R s s') : Alike R (.deferred s) (.deferred s')
  | giveUp : Alike R .giveUp .giveUp

/-- The same call but for the status of a report. -/
structure Timer.Alike (R : Status → Status → Prop) (t t' : Timer τ Alarm) : Prop where
  deadline : t.deadline = t'.deadline
  serial : t.serial = t'.serial
  call : t.call.Alike R t'.call

/-- The same clock but for the statuses of reports. -/
structure Clock.Alike (R : Status → Status → Prop) (c c' : Clock τ Alarm) : Prop where
  now : c.now = c'.now
  timers : List.Forall₂ (Timer.Alike R) c.timers c'.timers
  next : c.next = c'.next
  ordered : c.ordered = c'.ordered
  heap : c.heap = c'.heap

namespace Kindred

variable {R : Status → Status → Prop} {s s' : Status}

theorem isReconnecting (hR : Kindred R) (h : R s s') : s.isReconnecting = s'.isReconnecting := by
  rw [Status.isReconnecting, Status.isReconnecting, hR.condition h]

theorem phase (hR : Kindred R) (h : R s s') : s.phase = s'.phase :=
  congrArg Condition.phase (hR.condition h)

theorem isError (hR : Kindred R) (h : R s s') : s.isError = s'.isError := by
  rw [Status.isError, Status.isError, hR.condition h]

end Kindred

theorem isSome_eq_of_rel {A : α → α' → Prop} {a : Option α} {a' : Option α'}
    (h : Option.Rel A a a') : a.isSome = a'.isSome := by
  cases h <;> rfl

/-! ### The clock -/

namespace Clock.Alike

variable {R : Status → Status → Prop} {c c' : Clock τ Alarm}

theorem disarm (h : c.Alike R c') (serial : ℕ) : (c.disarm serial).Alike R (c'.disarm serial) := by
  have hserial : Relator.LiftFun (Timer.Alike R) (· ↔ ·)
      (fun t : Timer τ Alarm => (t.serial != serial) = true) fun t => (t.serial != serial) = true :=
    fun t t' ht => by
      show (t.serial != serial) = true ↔ (t'.serial != serial) = true
      rw [ht.serial]
  exact { h with timers := List.rel_filter hserial h.timers }

theorem find? (p : Timer τ Alarm → Bool) (hp : ∀ {t t'}, Timer.Alike R t t' → p t = p t')
    {l l' : List (Timer τ Alarm)} (h : List.Forall₂ (Timer.Alike R) l l') :
    Option.Rel (Timer.Alike R) (l.find? p) (l'.find? p) := by
  induction h with
  | nil => exact .none
  | @cons t t' _ _ ht _ ih =>
    rw [List.find?_cons, List.find?_cons, hp ht]
    cases p t' with
    | true => exact .some ht
    | false => exact ih

theorem eraseP (p : Timer τ Alarm → Bool) (hp : ∀ {t t'}, Timer.Alike R t t' → p t = p t')
    {l l' : List (Timer τ Alarm)} (h : List.Forall₂ (Timer.Alike R) l l') :
    List.Forall₂ (Timer.Alike R) (l.eraseP p) (l'.eraseP p) := by
  induction h with
  | nil => exact .nil
  | @cons t t' _ _ ht hl ih =>
    rw [List.eraseP_cons, List.eraseP_cons, hp ht]
    cases p t' with
    | true => exact hl
    | false => exact .cons ht ih

theorem timer? (h : c.Alike R c') (serial : ℕ) :
    Option.Rel (Timer.Alike R) (c.timer? serial) (c'.timer? serial) :=
  find? (fun t => t.serial == serial) (fun ht => by rw [ht.serial]) h.timers

theorem first? (h : c.Alike R c') : Option.Rel (Timer.Alike R) c.first? c'.first? := by
  rw [Clock.first?, Clock.first?, h.ordered, h.heap]
  split
  · have htimers := h.timers
    generalize c.timers = l at htimers
    generalize c'.timers = l' at htimers
    cases htimers with
    | nil => exact .none
    | cons ht _ => exact .some ht
  · cases c'.heap[0]? with
    | none => exact .none
    | some due => exact h.timer? due.serial

variable [LT τ] [DecidableLT τ]

theorem insert {t t' : Timer τ Alarm} (ht : t.Alike R t') {l l' : List (Timer τ Alarm)}
    (h : List.Forall₂ (Timer.Alike R) l l') :
    List.Forall₂ (Timer.Alike R) (Clock.insert t l) (Clock.insert t' l') := by
  induction h with
  | nil => exact .cons ht .nil
  | @cons u u' _ _ hu hl ih =>
    rw [Clock.insert, Clock.insert, ht.deadline, hu.deadline]
    by_cases hlt : t'.deadline < u'.deadline
    · rw [if_pos hlt, if_pos hlt]
      exact .cons ht (.cons hu hl)
    · rw [if_neg hlt, if_neg hlt]
      exact .cons hu ih

theorem moveTo (h : c.Alike R c') (time : τ) : (c.moveTo time).Alike R (c'.moveTo time) :=
  { h with now := by rw [Clock.moveTo, Clock.moveTo, h.now] }

variable [LE τ] [DecidableLE τ]

theorem arm [Zero τ] [Add τ] (h : c.Alike R c') (delay : τ) {a a' : Alarm} (ha : a.Alike R a') :
    (c.arm delay a).1 = (c'.arm delay a').1 ∧ (c.arm delay a).2.Alike R (c'.arm delay a').2 := by
  have hdeadline : c.now + delayed delay = c'.now + delayed delay := by rw [h.now]
  refine ⟨h.next, h.now, ?_, congrArg (· + 1) h.next, ?_, ?_⟩
  · exact insert ⟨hdeadline, h.next, ha⟩ h.timers
  · show (c.ordered && _) = (c'.ordered && _)
    rw [h.ordered, hdeadline]
  · show Heap.push _ _ c.heap = Heap.push _ _ c'.heap
    rw [h.heap, h.next, hdeadline]

theorem tidied (h : c.Alike R c') : c.tidied.Alike R c'.tidied := by
  refine { h with heap := ?_ }
  have hwanted : (fun serial => (c.timer? serial).isSome) =
      fun serial => (c'.timer? serial).isSome :=
    funext fun serial => isSome_eq_of_rel (h.timer? serial)
  rw [Clock.tidied, Clock.tidied, hwanted, h.heap]

theorem fired (h : c.Alike R c') {t t' : Timer τ Alarm} (ht : t.Alike R t') :
    (c.fired t).Alike R (c'.fired t') := by
  refine { h with now := ?_, timers := ?_, heap := ?_ }
  · rw [Clock.fired, Clock.fired, h.now, ht.deadline]
  · show List.Forall₂ _ (c.timers.eraseP _) (c'.timers.eraseP _)
    rw [ht.serial]
    exact eraseP (fun u => u.serial == t'.serial) (fun hu => by rw [hu.serial]) h.timers
  · rw [Clock.fired, Clock.fired, h.heap]

/-- **The same call falls due.** -/
theorem popDue (h : c.Alike R c') (limit : Option τ) :
    Option.Rel (Timer.Alike R) (c.popDue limit).1 (c'.popDue limit).1 ∧
      (c.popDue limit).2.Alike R (c'.popDue limit).2 := by
  have htidied := h.tidied
  have hfirst := htidied.first?
  simp only [Clock.popDue]
  generalize c.tidied.first? = t at hfirst ⊢
  generalize c'.tidied.first? = t' at hfirst ⊢
  cases hfirst with
  | none => exact ⟨.none, htidied⟩
  | some ht =>
    simp only [ht.deadline]
    split
    · exact ⟨.none, htidied⟩
    · exact ⟨.some ht, htidied.fired ht⟩

end Clock.Alike

section Slots

variable {R : Status → Status → Prop} {c c' : Clock τ Alarm} [LT τ] [DecidableLT τ] [LE τ]
  [DecidableLE τ] [Zero τ] [Add τ]

theorem Slot.cancel_alike (h : c.Alike R c') {slot slot' : Slot} (hs : slot = slot') :
    (slot.cancel c).1 = (slot'.cancel c').1 ∧ (slot.cancel c).2.Alike R (slot'.cancel c').2 := by
  subst hs
  unfold Slot.cancel
  cases slot.armed with
  | none => exact ⟨rfl, h⟩
  | some serial => exact ⟨rfl, h.disarm serial⟩

theorem Slot.schedule_alike (h : c.Alike R c') {slot slot' : Slot} (hs : slot = slot')
    {a a' : Alarm} (ha : a.Alike R a') (delay : τ) :
    (slot.schedule delay a c).1 = (slot'.schedule delay a' c').1 ∧
      (slot.schedule delay a c).2.Alike R (slot'.schedule delay a' c').2 := by
  subst hs
  obtain ⟨hserial, hclock⟩ := (Slot.cancel_alike h rfl).2.arm delay ha
  exact ⟨congrArg (fun serial => slot.released.take serial) hserial, hclock⟩

end Slots

end TunnelView
