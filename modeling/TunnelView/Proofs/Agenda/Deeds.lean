import Mathlib.Data.List.Basic
import TunnelView.Agenda

/-!
# What is done on an agenda

Whatever code does on an agenda is a series of deeds: calls are put on the clock, into slots and as
plain timers; calls come to an end, because they are let go of or fall due; and time passes. The
deeds alone say which call each slot should hold (`latest?`) and which plain timers should be left
(`plain`).

Letting go of a call and taking one on are the same for slots and plain timers; `Option ℕ` says whose
a call is: that of a slot, or nobody's.

Key definitions: `Agenda.Entry`, `Agenda.Deed`, `Agenda.latest?`, `Agenda.plain`, `Agenda.Step`,
`Agenda.Trace`.
Key theorems: `Agenda.latest?_cons_of_ne`, `Agenda.onSlot_apply`, `Agenda.claim_eq`,
`Agenda.claim_of_armed`.
-/

namespace TunnelView.Agenda

variable {τ : Type}

/-- The place of the slot that a call is meant for, if it is meant for one. -/
def Call.slot : Call τ → Option Int
  | .mk slot _ _ _ _ => slot

/-- How long a call waits. -/
def Call.delay : Call τ → τ
  | .mk _ _ delay _ _ => delay

/-- Whose a call is among so many slots, unless the place of its slot is no place. -/
def Call.owner? (n : ℕ) (call : Call τ) : Option (Option ℕ) :=
  match call.slot with
  | none => some none
  | some k => (place? n k).map some

/-- Whether a call on the clock is that of an owner. -/
def isOf (n : ℕ) (o : Option ℕ) (t : Timer τ (Call τ)) : Bool := t.call.owner? n == some o

theorem lt_of_place? {n i : ℕ} {k : Int} (h : place? n k = some i) : i < n := by
  unfold place? at h
  dsimp only at h
  split at h <;> split at h
  all_goals first
    | contradiction
    | rw [← Option.some.inj h]
      omega

theorem owner?_of_slot {call : Call τ} {k : Int} {n i : ℕ} (hcall : call.slot = some k)
    (hplace : place? n k = some i) : call.owner? n = some (some i) := by
  rw [Call.owner?, hcall]
  exact congrArg (Option.map some) hplace

theorem lt_of_owner? {call : Call τ} {n i : ℕ} (h : call.owner? n = some (some i)) : i < n := by
  unfold Call.owner? at h
  split at h
  · cases h
  · obtain ⟨j, hplace, hj⟩ := Option.map_eq_some_iff.mp h
    rw [← Option.some.inj hj]
    exact lt_of_place? hplace

theorem owner?_of_plain {call : Call τ} (hcall : call.slot = none) (n : ℕ) :
    call.owner? n = some none := by
  rw [Call.owner?, hcall]

/-- An agenda on its clock. -/
abbrev Desk (τ : Type) := Timed (Clock τ (Call τ)) (Agenda τ)

/-- A desk with so many empty slots. -/
def fresh (n : ℕ) (now : τ) : Desk τ := ⟨{ now }, { slots := List.replicate n {} }⟩

/-! ### Deeds -/

/-- A call that was put on the clock: whose it is, and when and under which number that was. -/
structure Entry (τ : Type) where
  owner : Option ℕ
  time : τ
  serial : ℕ
  call : Call τ

/-- Something that was done. -/
inductive Deed (τ : Type) where
  /-- A call was put on the clock; if it is a slot's, in place of what that held. -/
  | arms (e : Entry τ)
  /-- A call came to its end: it was let go of, or fell due. -/
  | ends (owner : Option ℕ) (serial : ℕ)
  /-- A slot was emptied that held no call. -/
  | clears (i : ℕ)
  /-- Time passed, or something was noted. -/
  | waits

/-- Whose call a deed is about. -/
def Deed.owner? : Deed τ → Option (Option ℕ)
  | .arms e => some e.owner
  | .ends owner _ => some owner
  | .clears i => some (some i)
  | .waits => none

/-- The call that was last put into a slot, unless it has come to its end; the newest deed is first.
-/
def latest? (i : ℕ) : List (Deed τ) → Option (Entry τ)
  | [] => none
  | .arms e :: deeds => if e.owner = some i then some e else latest? i deeds
  | .ends owner _ :: deeds => if owner = some i then none else latest? i deeds
  | .clears _ :: deeds | .waits :: deeds => latest? i deeds

/-- The plain timers that have not come to their end. -/
def plain : List (Deed τ) → List (Entry τ)
  | [] => []
  | .arms e :: deeds => if e.owner = none then e :: plain deeds else plain deeds
  | .ends none serial :: deeds => (plain deeds).filter (·.serial != serial)
  | .ends (some _) _ :: deeds | .clears _ :: deeds | .waits :: deeds => plain deeds

/-- The calls of an owner that have not come to their end. -/
def standing (deeds : List (Deed τ)) : Option ℕ → List (Entry τ)
  | none => plain deeds
  | some i => (latest? i deeds).toList

theorem latest?_cons_of_ne {d : Deed τ} {i : ℕ} (h : d.owner? ≠ some (some i))
    (deeds : List (Deed τ)) : latest? i (d :: deeds) = latest? i deeds := by
  cases d with
  | arms e => exact if_neg fun he => h (congrArg some he)
  | ends owner serial => exact if_neg fun ho => h (congrArg some ho)
  | clears => rfl
  | waits => rfl

theorem standing_waits (deeds : List (Deed τ)) (o : Option ℕ) :
    standing (.waits :: deeds) o = standing deeds o := by
  cases o <;> rfl

theorem standing_clears (i : ℕ) (deeds : List (Deed τ)) (o : Option ℕ) :
    standing (.clears i :: deeds) o = standing deeds o := by
  cases o <;> rfl

theorem standing_arms_of_ne {e : Entry τ} {o : Option ℕ} (h : e.owner ≠ o)
    (deeds : List (Deed τ)) : standing (.arms e :: deeds) o = standing deeds o := by
  cases o with
  | none => exact if_neg h
  | some i => exact congrArg Option.toList (if_neg h)

theorem standing_arms_self {e : Entry τ} {deeds : List (Deed τ)}
    (hfree : ∀ i, e.owner = some i → latest? i deeds = none) :
    standing (.arms e :: deeds) e.owner = e :: standing deeds e.owner := by
  cases ho : e.owner with
  | none => exact if_pos ho
  | some i =>
    have harms : latest? i (.arms e :: deeds) = some e := if_pos ho
    rw [standing, standing, harms, hfree i ho]
    rfl

theorem standing_ends_of_ne {o o' : Option ℕ} (h : o ≠ o') (serial : ℕ) (deeds : List (Deed τ)) :
    standing (.ends o serial :: deeds) o' = standing deeds o' := by
  cases o' with
  | none =>
    obtain ⟨i, rfl⟩ := Option.ne_none_iff_exists'.mp h
    rfl
  | some i => exact congrArg Option.toList (if_neg h)

/-! ### Slots -/

/-- Another slot in the place of an owner's, if the owner is one. -/
def setSlot (slot : Slot) (slots : List Slot) : Option ℕ → List Slot
  | none => slots
  | some i => slots.set i slot

@[simp] theorem length_setSlot (slot : Slot) (slots : List Slot) (o : Option ℕ) :
    (setSlot slot slots o).length = slots.length := by
  cases o with
  | none => rfl
  | some i => exact List.length_set

theorem getElem?_setSlot {slot slot' : Slot} {slots : List Slot} {o : Option ℕ} {i : ℕ}
    (h : (setSlot slot slots o)[i]? = some slot') :
    o = some i ∧ slot' = slot ∨ o ≠ some i ∧ slots[i]? = some slot' := by
  cases o with
  | none => exact .inr ⟨nofun, h⟩
  | some j =>
    rw [setSlot, List.getElem?_set] at h
    by_cases hj : j = i
    · rw [if_pos hj] at h
      split at h
      · exact .inl ⟨congrArg some hj, (Option.some.inj h).symm⟩
      · contradiction
    · rw [if_neg hj] at h
      exact .inr ⟨fun hji => hj (Option.some.inj hji), h⟩

theorem slot?_eq_some {a : Agenda τ} {k : Int} {i : ℕ} {slot : Slot} :
    slot? a k = some (i, slot) ↔ place? a.slots.length k = some i ∧ a.slots[i]? = some slot := by
  unfold slot?
  cases place? a.slots.length k with
  | none => simp
  | some j =>
    cases hj : a.slots[j]? with
    | none =>
      simp only [Option.bind_eq_bind, Option.bind_some, hj, Option.bind_none, reduceCtorEq, false_iff,
        not_and, Option.some.injEq]
      rintro rfl
      simp [hj]
    | some s =>
      simp only [Option.bind_eq_bind, Option.bind_some, hj, Option.pure_def, Option.some.injEq,
        Prod.mk.injEq]
      constructor
      · rintro ⟨rfl, rfl⟩
        exact ⟨rfl, hj⟩
      · rintro ⟨rfl, hs⟩
        rw [hj] at hs
        exact ⟨rfl, Option.some.inj hs⟩

section OnSlot

variable {C : Type} {w : Timed C (Agenda τ)} {k : Int}

theorem onSlot_apply {i : ℕ} {slot : Slot} (h : slot? w.rest k = some (i, slot))
    (f : Slot → C → Slot × C) : onSlot k f w = (.ok (),
      ⟨(f slot w.clock).2, { w.rest with slots := w.rest.slots.set i (f slot w.clock).1 }⟩) := by
  rw [onSlot, Act.bind_apply]
  simp only [Act.world, h]
  rfl

theorem onSlot_of_no_place (h : slot? w.rest k = none) (f : Slot → C → Slot × C) :
    (onSlot k f w).2 = w := by
  rw [onSlot, Act.bind_apply]
  simp only [Act.world, h]
  rfl

/-- A call that is claimed leaves its slot empty. -/
theorem claim_eq {serial : ℕ} {call : Call τ} {w' : Timed C (Agenda τ)} {o : Option ℕ}
    (ho : call.owner? w.rest.slots.length = some o) (h : claim serial call w = (.ok true, w')) :
    ∃ slot, (∀ i, o = some i → w.rest.slots[i]? = some slot) ∧
      w' = { w with rest.slots := setSlot slot.emptied w.rest.slots o } := by
  rcases call with ⟨slot, name, delay, items, again⟩
  cases slot with
  | none =>
    obtain rfl := Option.some.inj ho
    exact ⟨{}, nofun, (congrArg Prod.snd h).symm⟩
  | some k =>
    obtain ⟨i, hplace, rfl⟩ := Option.map_eq_some_iff.mp ho
    simp only [claim] at h
    split at h
    · cases h
    · rename_i j slot hslot
      obtain ⟨hj, hget⟩ := slot?_eq_some.mp hslot
      obtain rfl : i = j := Option.some.inj (hplace.symm.trans hj)
      rw [Slot.claim?_eq] at h
      split at h
      · cases h
      · rename_i slot' hclaim
        split at hclaim
        · obtain rfl := Option.some.inj hclaim
          refine ⟨slot, fun k hk => ?_, (congrArg Prod.snd h).symm⟩
          rw [← Option.some.inj hk, hget]
        · contradiction

/-- A call is claimed if its slot is armed with it. -/
theorem claim_of_armed {serial : ℕ} {call : Call τ} {o : Option ℕ} (slot : Slot)
    (ho : call.owner? w.rest.slots.length = some o)
    (hslot : ∀ i, o = some i → w.rest.slots[i]? = some slot ∧ slot.armed = some serial) :
    claim serial call w =
      (.ok true, { w with rest.slots := setSlot slot.emptied w.rest.slots o }) := by
  rcases call with ⟨place, name, delay, items, again⟩
  cases place with
  | none =>
    obtain rfl := Option.some.inj ho
    rfl
  | some k =>
    obtain ⟨i, hplace, rfl⟩ := Option.map_eq_some_iff.mp ho
    obtain ⟨hget, harmed⟩ := hslot i rfl
    have hslot : slot? w.rest k = some (i, slot) := slot?_eq_some.mpr ⟨hplace, hget⟩
    simp only [claim, hslot, Slot.claim?_eq, harmed, if_true]
    rfl

section Items

variable [Timekeeper C τ (Call τ)] [Zero τ] [Add τ] [LT τ] [DecidableLT τ] (fuel : ℕ)

theorem run_arm (call : Call τ) (w : Timed C (Agenda τ)) :
    (Item.arm call).run (fuel + 1) w = armCall call w := rfl

theorem run_cancel (k : Int) (w : Timed C (Agenda τ)) :
    (Item.cancel k).run (fuel + 1) w = cancel k w := rfl

theorem run_dropTimer (name : String) (w : Timed C (Agenda τ)) :
    (Item.dropTimer name).run (fuel + 1) w = dropTimer name w := rfl

theorem run_fire {place : Int} {w : Timed C (Agenda τ)} {t : Timer τ (Call τ)}
    (h : Timekeeper.kept? place w.clock = some t) :
    (Item.fire place).run (fuel + 1) w = ring (Item.run fuel) t w := by
  show step (ring (Item.run fuel)) fuel (.fire place) w = _
  rw [step, Act.bind_apply]
  simp only [Act.world, h]

theorem run_fire_of_no_place {place : Int} {w : Timed C (Agenda τ)}
    (h : Timekeeper.kept? place w.clock = none) : ((Item.fire place).run (fuel + 1) w).2 = w := by
  show (step (ring (Item.run fuel)) fuel (.fire place) w).2 = w
  rw [step, Act.bind_apply]
  simp only [Act.world, h]
  rfl

end Items

section DropTimer

variable [Timekeeper C τ (Call τ)] {name : String}

theorem dropTimer_apply {handle : String × ℕ}
    (h : w.rest.timers.find? (·.1 == name) = some handle) :
    dropTimer name w = (.ok (), ⟨Timekeeper.disarm handle.2 w.clock, w.rest⟩) := by
  rw [dropTimer, Act.bind_apply]
  simp only [Act.world, h]
  rfl

theorem dropTimer_of_no_name (h : w.rest.timers.find? (·.1 == name) = none) :
    (dropTimer name w).2 = w := by
  rw [dropTimer, Act.bind_apply]
  simp only [Act.world, h]
  rfl

end DropTimer

theorem armCall_of_slot [Timekeeper C τ (Call τ)] {call : Call τ} (h : call.slot = some k) :
    (armCall call : Run C τ Unit) = onSlot k (Slot.schedule call.delay call) := by
  rcases call with ⟨slot, name, delay, items, again⟩
  obtain rfl : slot = some k := h
  rfl

end OnSlot

/-! ### One deed after another -/

variable [Zero τ] [Add τ] [LT τ] [DecidableLT τ] [LE τ] [DecidableLE τ]

theorem armCall_of_plain {call : Call τ} (h : call.slot = none) (w : Desk τ) : ∃ name,
    armCall call w = (.ok (), ⟨(w.clock.arm call.delay call).2,
      { w.rest with timers := (name, w.clock.next) :: w.rest.timers }⟩) := by
  rcases call with ⟨slot, name, delay, items, again⟩
  obtain rfl : slot = none := h
  exact ⟨name, rfl⟩

/-- What code does on a desk, one deed at a time: items that are run, and calls that fall due. -/
inductive Step : Desk τ → Deed τ → Desk τ → Prop
  /-- A call is put into its slot, whatever that held, -/
  | schedules {w call k i slot} (fuel : ℕ) : call.slot = some k → slot? w.rest k = some (i, slot) →
    Step w (.arms ⟨some i, w.clock.now, w.clock.next, call⟩) ((Item.arm call).run (fuel + 1) w).2
  /-- or on the clock as a plain timer. -/
  | arms {w call} (fuel : ℕ) : call.slot = none →
    Step w (.arms ⟨none, w.clock.now, w.clock.next, call⟩) ((Item.arm call).run (fuel + 1) w).2
  /-- A slot is emptied of its call, -/
  | cancels {w k i slot serial} (fuel : ℕ) : slot? w.rest k = some (i, slot) →
    slot.armed = some serial → Step w (.ends (some i) serial) ((Item.cancel k).run (fuel + 1) w).2
  /-- or holds none as it is. -/
  | clears {w k i slot} (fuel : ℕ) : slot? w.rest k = some (i, slot) → slot.armed = none →
    Step w (.clears i) ((Item.cancel k).run (fuel + 1) w).2
  /-- The newest plain timer of a name is let go of, whether or not it has come to its end. -/
  | drops {w name handle} (fuel : ℕ) : w.rest.timers.find? (·.1 == name) = some handle →
    Step w (.ends none handle.2) ((Item.dropTimer name).run (fuel + 1) w).2
  /-- A call falls due and is claimed, before it does anything. -/
  | fires {w limit t clock o w'} : w.clock.popDue limit = (some t, clock) →
    t.call.owner? w.rest.slots.length = some o →
    claim t.serial t.call { w with clock } = (.ok true, w') → Step w (.ends o t.serial) w'
  | moves (w time) : Step w .waits { w with clock := w.clock.moveTo time }
  | tidies (w) : Step w .waits { w with clock := w.clock.tidied }
  | notes (w fired) : Step w .waits { w with rest.fired := fired }

/-- The deeds that lead from one desk to another, the newest first. -/
inductive Trace (start : Desk τ) : List (Deed τ) → Desk τ → Prop
  | start : Trace start [] start
  | step {deeds w d w'} : Trace start deeds w → Step w d w' → Trace start (d :: deeds) w'

end TunnelView.Agenda
