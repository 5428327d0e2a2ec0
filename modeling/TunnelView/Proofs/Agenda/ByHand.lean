import Mathlib.Algebra.Order.Group.Int
import Mathlib.Algebra.Ring.Int.Defs
import TunnelView.Proofs.Agenda.Current
import TunnelView.Proofs.Agenda.Moments

/-!
# Only what is current runs, whatever is fired by hand

On a tape nothing falls due and nothing is let go of: every call that was ever handed over is kept,
and any of them may be fired at any time, in any order, again and again, and from inside calls. What
protects a slot is only that it counts generations. Every moment of every program on a tape has its
history (`ByHand.Past`), which is sound, and by which a slot is pending just while it has a current
call.

Key definitions: `Agenda.Bench`, `Agenda.ByHand.Meets`, `Agenda.ByHand.Moment`,
`Agenda.ByHand.Past`, `Agenda.ByHand.Agrees`.
Key theorems: `Agenda.ByHand.Past.agrees`, `Agenda.ByHand.Past.of_moment`,
`Agenda.ByHand.only_current_calls_run`.
-/

namespace TunnelView.Agenda

variable {τ : Type}

/-- An agenda on a tape. -/
abbrev Bench (τ : Type) := Timed (Tape τ (Call τ)) (Agenda τ)

/-- What is left of a firing once the call is claimed and recorded. -/
def Call.body (run : Item τ → Run (Tape τ (Call τ)) τ Unit) : Call τ → Run (Tape τ (Call τ)) τ Unit
  | .mk slot name delay items again => do
    runAll run items
    match again with
    | 0 => pure ()
    | again + 1 => run (.arm (.mk slot name delay items again))

namespace ByHand

/-- A bench with so many empty slots. -/
def fresh (n : ℕ) (now : τ) : Bench τ := ⟨{ now }, { slots := List.replicate n {} }⟩

/-- A bench with the firing of a call recorded. -/
def recorded (call : Call τ) (w : Bench τ) : Bench τ :=
  { w with rest.fired := ⟨call.name, w.clock.now, w.rest.pending⟩ :: w.rest.fired }

/-! ### Slots on a tape -/

section Slots

variable {w : Bench τ} {slot : Slot} {t : Timer τ (Call τ)} {i : ℕ}

theorem cancel_eq (slot : Slot) (c : Tape τ (Call τ)) : slot.cancel c = (slot.released, c) := by
  rw [Slot.cancel]
  cases slot.armed <;> rfl

theorem schedule_eq (slot : Slot) (delay : τ) (call : Call τ) (c : Tape τ (Call τ)) :
    slot.schedule delay call c =
      (slot.released.take c.calls.length, { c with calls := call :: c.calls }) := by
  rw [Slot.schedule, cancel_eq]
  rfl

/-- The newest call takes its generation along, and the others keep what they took before. -/
theorem exists_lookup_take {k k' : ℕ}
    (h : k' ≠ k → ∃ generation, slot.taken.lookup k' = some generation) :
    ∃ generation, (slot.take k).taken.lookup k' = some generation := by
  by_cases hk : k' = k
  · exact ⟨_, Slot.lookup_taken (by rw [hk]; rfl)⟩
  · obtain ⟨generation, hlookup⟩ := h hk
    have hne : (k' == k) = false := by simpa using hk
    refine ⟨generation, ?_⟩
    rw [Slot.take, List.lookup_cons, hne]
    exact hlookup

/-- A call that is kept stands at its place among all that were handed over. -/
theorem getElem?_of_kept {place : Int} (h : Timekeeper.kept? place w.clock = some t) :
    w.clock.calls.reverse[t.serial]? = some t.call := by
  obtain ⟨j, -, hj⟩ := Option.bind_eq_some_iff.mp h
  obtain ⟨call, hcall, ht⟩ := Option.bind_eq_some_iff.mp hj
  obtain rfl := Option.some.inj ht
  exact hcall

/-- A call that its slot does not hold is not claimed, and nothing is changed. -/
theorem claim_of_not_armed (ho : t.call.owner? w.rest.slots.length = some (some i))
    (hslot : w.rest.slots[i]? = some slot) (harmed : slot.armed ≠ some t.serial) :
    claim t.serial t.call w = (.ok false, w) := by
  rcases t with ⟨deadline, serial, _ | k, name, delay, items, again⟩
  · cases ho
  · obtain ⟨j, hplace, hj⟩ := Option.map_eq_some_iff.mp ho
    obtain rfl := Option.some.inj hj
    have hplaced : slot? w.rest k = some (j, slot) := slot?_eq_some.mpr ⟨hplace, hslot⟩
    simp only [claim, hplaced, Slot.claim?_eq, if_neg harmed]

end Slots

/-! ### Histories -/

/-- The history of a bench: what was done with its slots, the newest first. Plain calls have no slot,
and so no part in it. -/
inductive Past [Zero τ] [Add τ] [LT τ] [DecidableLT τ] (n : ℕ) (now : τ) :
    List Slots.Deed → Bench τ → Prop
  | start : Past n now [] (fresh n now)
  | hands {deeds w call} (fuel : ℕ) : call.slot = none →
    Past n now deeds w → Past n now deeds ((Item.arm call).run (fuel + 1) w).2
  | schedules {deeds w call k i slot} (fuel : ℕ) :
    call.slot = some k → slot? w.rest k = some (i, slot) → Past n now deeds w →
    Past n now (.schedules i w.clock.calls.length :: deeds) ((Item.arm call).run (fuel + 1) w).2
  | cancels {deeds w k i slot} (fuel : ℕ) : slot? w.rest k = some (i, slot) →
    Past n now deeds w → Past n now (.cancels i :: deeds) ((Item.cancel k).run (fuel + 1) w).2
  | rings {deeds w place t} : Timekeeper.kept? place w.clock = some t → t.call.slot = none →
    Past n now deeds w → Past n now deeds (recorded t.call w)
  | runs {deeds w place t i w₁} : Timekeeper.kept? place w.clock = some t →
    t.call.owner? n = some (some i) → claim t.serial t.call w = (.ok true, w₁) →
    Past n now deeds w → Past n now (.runs i t.serial :: deeds) (recorded t.call w₁)

/-! ### Firings -/

section Firings

variable {run : Item τ → Run (Tape τ (Call τ)) τ Unit} {t : Timer τ (Call τ)} {w w₁ : Bench τ}

theorem ring_of_claim (h : claim t.serial t.call w = (.ok true, w₁)) :
    ring run t w = t.call.body run (recorded t.call w₁) := by
  rw [ring, Act.bind_apply, h]
  rcases t with ⟨deadline, serial, slot, name, delay, items, again⟩
  rfl

theorem ring_of_not_claim (h : claim t.serial t.call w = (.ok false, w)) :
    ring run t w = (.ok (), w) := by
  rw [ring, Act.bind_apply, h]
  rfl

theorem claim_cases (serial : ℕ) (call : Call τ) (w : Bench τ) :
    claim serial call w = (.ok false, w) ∨ ∃ w₁, claim serial call w = (.ok true, w₁) := by
  rcases call with ⟨_ | k, name, delay, items, again⟩
  · exact .inr ⟨w, rfl⟩
  · simp only [claim]
    split
    · exact .inl rfl
    · split
      · exact .inl rfl
      · exact .inr ⟨_, rfl⟩

end Firings

/-! ### Histories say what the slots hold -/

/-- The slots of a bench are armed as its history says, every call that was put into a slot took a
generation along, and every call that a slot was meant for is one that was put into it. -/
structure Agrees (n : ℕ) (deeds : List Slots.Deed) (w : Bench τ) : Prop where
  slots : w.rest.slots.length = n
  sound : Slots.Sound deeds
  armed : ∀ i slot, w.rest.slots[i]? = some slot → slot.armed = Slots.current? i deeds
  taken : ∀ i slot k, w.rest.slots[i]? = some slot → .schedules i k ∈ deeds →
    ∃ generation, slot.taken.lookup k = some generation
  early : ∀ i k, .schedules i k ∈ deeds → k < w.clock.calls.length
  handed : ∀ k call i, w.clock.calls.reverse[k]? = some call → call.owner? n = some (some i) →
    .schedules i k ∈ deeds

namespace Agrees

variable {n : ℕ} {now : τ} {deeds : List Slots.Deed} {w : Bench τ}

theorem start (n : ℕ) (now : τ) : Agrees n [] (fresh n now) where
  slots := List.length_replicate
  sound := trivial
  armed i slot h := by
    obtain ⟨-, rfl⟩ := List.mem_replicate.mp (List.mem_of_getElem? h)
    rfl
  taken _ _ _ _ h := by contradiction
  early _ _ h := by contradiction
  handed _ _ _ h := by contradiction

/-- One more call is handed over. -/
theorem getElem?_handed {calls : List (Call τ)} {call call' : Call τ} {k : ℕ}
    (h : (call :: calls).reverse[k]? = some call') :
    calls.reverse[k]? = some call' ∨ k = calls.length ∧ call' = call := by
  rw [List.reverse_cons] at h
  rcases Nat.lt_or_ge k calls.reverse.length with hk | hk
  · rw [List.getElem?_append_left hk] at h
    exact .inl h
  · rw [List.getElem?_append_right hk, List.getElem?_singleton] at h
    split at h
    · rename_i hlast
      rw [List.length_reverse] at hk hlast
      exact .inr ⟨by omega, (Option.some.inj h).symm⟩
    · cases h

/-- Where a deed changes one slot, the slots stay armed as the history says. -/
theorem armed_set (h : Agrees n deeds w) {d : Slots.Deed} {i : ℕ} {new : Slot}
    (hnew : new.armed = Slots.current? i (d :: deeds))
    (hothers : ∀ j, j ≠ i → Slots.current? j (d :: deeds) = Slots.current? j deeds) {j : ℕ}
    {slot : Slot} (hslot : (w.rest.slots.set i new)[j]? = some slot) :
    slot.armed = Slots.current? j (d :: deeds) := by
  have hcases := getElem?_setSlot (o := some i) hslot
  rcases hcases with ⟨hij, rfl⟩ | ⟨hij, hslot⟩
  · obtain rfl := Option.some.inj hij
    exact hnew
  · rw [hothers j fun heq => hij (congrArg some heq.symm)]
    exact h.armed j slot hslot

/-- Where one slot is emptied, what its calls took along stays known. -/
theorem taken_set (h : Agrees n deeds w) {i : ℕ} {slot : Slot}
    (hi : w.rest.slots[i]? = some slot) (new : Slot) (hnew : new.taken = slot.taken) {j k : ℕ}
    {slot' : Slot} (hslot : (w.rest.slots.set i new)[j]? = some slot')
    (hk : .schedules j k ∈ deeds) :
    ∃ generation, slot'.taken.lookup k = some generation := by
  have hcases := getElem?_setSlot (o := some i) hslot
  rcases hcases with ⟨hij, rfl⟩ | ⟨hij, hslot⟩
  · obtain rfl := Option.some.inj hij
    rw [hnew]
    exact h.taken i slot k hi hk
  · exact h.taken j slot' k hslot hk

theorem hands (h : Agrees n deeds w) {call : Call τ} (hcall : call.slot = none) :
    Agrees n deeds (armCall call w).2 := by
  rcases call with ⟨slot, name, delay, items, again⟩
  obtain rfl : slot = none := hcall
  refine ⟨h.slots, h.sound, h.armed, h.taken,
    fun i k hk => Nat.lt_succ_of_lt (h.early i k hk), ?_⟩
  intro k call i hget ho
  rcases getElem?_handed hget with hget | ⟨-, rfl⟩
  · exact h.handed k call i hget ho
  · cases ho

theorem schedules (h : Agrees n deeds w) {call : Call τ} {k : Int} {i : ℕ} {slot : Slot}
    (hcall : call.slot = some k) (hslot : slot? w.rest k = some (i, slot)) :
    Agrees n (.schedules i w.clock.calls.length :: deeds) (armCall call w).2 := by
  rw [armCall_of_slot hcall, onSlot_apply hslot, schedule_eq]
  obtain ⟨hplace, hget⟩ := slot?_eq_some.mp hslot
  rw [h.slots] at hplace
  refine ⟨List.length_set.trans h.slots, ⟨fun j hj => ?_, h.sound⟩, ?_, ?_, ?_, ?_⟩
  · exact Nat.lt_irrefl _ (h.early j _ hj)
  · intro j slot' hslot'
    refine h.armed_set (if_pos rfl).symm (fun j hj => ?_) hslot'
    exact if_neg hj.symm
  · intro j slot' k' hslot' hk'
    have hcases := getElem?_setSlot (o := some i) hslot'
    rcases hcases with ⟨hij, rfl⟩ | ⟨hij, hslot'⟩
    · obtain rfl := Option.some.inj hij
      exact exists_lookup_take fun hold => h.taken i slot k' hget (by simpa [hold] using hk')
    · have hj : ¬i = j := fun heq => hij (congrArg some heq)
      refine h.taken j slot' k' hslot' ?_
      simpa [eq_comm, hj] using hk'
  · intro j k' hk'
    show k' < w.clock.calls.length + 1
    rcases List.mem_cons.mp hk' with heq | hk'
    · cases heq
      exact Nat.lt_succ_self _
    · exact Nat.lt_succ_of_lt (h.early j k' hk')
  · intro k' call' j hget ho
    rcases getElem?_handed hget with hget | ⟨rfl, rfl⟩
    · exact List.mem_cons_of_mem _ (h.handed k' call' j hget ho)
    · rw [owner?_of_slot hcall hplace] at ho
      cases ho
      exact List.mem_cons_self

theorem cancels (h : Agrees n deeds w) {k : Int} {i : ℕ} {slot : Slot}
    (hslot : slot? w.rest k = some (i, slot)) : Agrees n (.cancels i :: deeds) (cancel k w).2 := by
  rw [Agenda.cancel, onSlot_apply hslot, cancel_eq]
  refine ⟨List.length_set.trans h.slots, h.sound, ?_, ?_, ?_, ?_⟩
  · intro j slot' hslot'
    refine h.armed_set (if_pos rfl).symm (fun j hj => ?_) hslot'
    exact if_neg hj.symm
  · exact fun j slot' k' hslot' hk' =>
      h.taken_set (slot?_eq_some.mp hslot).2 slot.released rfl hslot' (by simpa using hk')
  · exact fun j k' hk' => h.early j k' (by simpa using hk')
  · exact fun k' call j hget ho => List.mem_cons_of_mem _ (h.handed k' call j hget ho)

/-- A call is claimed just if its slot is left with it. -/
theorem claims_iff (h : Agrees n deeds w) {t : Timer τ (Call τ)} {i : ℕ}
    (ho : t.call.owner? n = some (some i)) : (∃ w₁, claim t.serial t.call w = (.ok true, w₁)) ↔
      Slots.current? i deeds = some t.serial := by
  have hi : i < w.rest.slots.length := h.slots ▸ lt_of_owner? ho
  have hslot := List.getElem?_eq_getElem hi
  have harmed := h.armed i _ hslot
  rw [← h.slots] at ho
  constructor
  · rintro ⟨w₁, hclaim⟩
    by_contra hne
    rw [← harmed] at hne
    rw [claim_of_not_armed ho hslot hne] at hclaim
    cases hclaim
  · intro hcur
    rw [hcur] at harmed
    refine ⟨_, claim_of_armed w.rest.slots[i] ho fun j hj => ?_⟩
    rw [← Option.some.inj hj]
    exact ⟨hslot, harmed⟩

theorem runs (h : Agrees n deeds w) {t : Timer τ (Call τ)} {i : ℕ} {w₁ : Bench τ}
    (ho : t.call.owner? n = some (some i)) (hclaim : claim t.serial t.call w = (.ok true, w₁)) :
    Agrees n (.runs i t.serial :: deeds) (recorded t.call w₁) := by
  have hcur := (h.claims_iff ho).mp ⟨w₁, hclaim⟩
  rw [← h.slots] at ho
  obtain ⟨slot, hslot, rfl⟩ := claim_eq ho hclaim
  refine ⟨(length_setSlot _ _ (some i)).trans h.slots, ⟨hcur, h.sound⟩, ?_, ?_, ?_, ?_⟩
  · intro j slot' hslot'
    refine h.armed_set (if_pos rfl).symm (fun j hj => ?_) hslot'
    exact if_neg hj.symm
  · exact fun j slot' k' hslot' hk' =>
      h.taken_set (hslot i rfl) slot.emptied rfl hslot' (by simpa using hk')
  · exact fun j k' hk' => h.early j k' (by simpa using hk')
  · exact fun k' call j hget ho => List.mem_cons_of_mem _ (h.handed k' call j hget ho)

end Agrees

/-! ### Time stands still on a tape -/

section Still

variable (fire : Timed.Fire (Tape τ (Call τ)) (Agenda τ) τ (Call τ)) (fuel : ℕ) (w : Bench τ)

theorem drainAll_still (most : ℤ) (n : ℕ) : (Timed.drainAll fire most n w).2 = w := by
  cases n <;> rfl

theorem advanceTo_still (time : τ) : (Timed.advanceTo fire fuel time w).2 = w := by
  cases fuel <;> rfl

theorem advanceNowhere_still (kind? : Option String) :
    (Timed.advanceNowhere fire fuel kind? w).2 = w := by
  cases kind? with
  | none => cases fuel <;> rfl
  | some kind => rfl

theorem advance_still [Zero τ] [Add τ] [LT τ] [DecidableLT τ] (delta : τ) :
    (Timed.advance fire fuel delta w).2 = w := by
  unfold Timed.advance
  by_cases hdelta : delta < 0
  · rw [if_pos hdelta]
    rfl
  · rw [if_neg hdelta]
    exact advanceTo_still fire fuel w _

end Still

/-! ### What is done goes into the history -/

variable [Zero τ] [Add τ] [LT τ] [DecidableLT τ]

namespace Past

variable {n : ℕ} {now : τ} {deeds : List Slots.Deed} {w : Bench τ}

theorem agrees (h : Past n now deeds w) : Agrees n deeds w := by
  induction h with
  | start => exact .start n now
  | hands _ hcall _ ih => exact ih.hands hcall
  | schedules _ hcall hslot _ ih => exact ih.schedules hcall hslot
  | cancels _ hslot _ ih => exact ih.cancels hslot
  | rings _ _ _ ih => exact ⟨ih.slots, ih.sound, ih.armed, ih.taken, ih.early, ih.handed⟩
  | runs _ ho hclaim _ ih => exact ih.runs ho hclaim

/-- A bench with some history. -/
def Has (n : ℕ) (now : τ) (w : Bench τ) : Prop := ∃ deeds, Past n now deeds w

theorem claimed {place : Int} {t : Timer τ (Call τ)} {w₁ : Bench τ} (h : Has n now w)
    (hkept : Timekeeper.kept? place w.clock = some t)
    (hclaim : claim t.serial t.call w = (.ok true, w₁)) : Has n now (recorded t.call w₁) := by
  obtain ⟨deeds, h⟩ := h
  cases hslot : t.call.slot with
  | none =>
    have hsame : claim t.serial t.call w = (.ok true, w) := by
      rcases t with ⟨deadline, serial, slot, name, delay, items, again⟩
      obtain rfl : slot = none := hslot
      rfl
    obtain rfl : w = w₁ := congrArg Prod.snd (hsame.symm.trans hclaim)
    exact ⟨deeds, .rings hkept hslot h⟩
  | some k =>
    cases hplace : place? n k with
    | none =>
      -- a slot that is not there claims nothing
      have hnone : slot? w.rest k = none := by
        rw [slot?, h.agrees.slots, hplace]
        rfl
      rcases t with ⟨deadline, serial, slot, name, delay, items, again⟩
      obtain rfl : slot = some k := hslot
      simp only [claim, hnone] at hclaim
      cases hclaim
    | some i => exact ⟨_, .runs hkept (owner?_of_slot hslot hplace) hclaim h⟩

theorem armCall (call : Call τ) :
    Stays (Has n now) (armCall call : Run (Tape τ (Call τ)) τ Unit) := by
  rintro w ⟨deeds, h⟩
  cases hcall : call.slot with
  | none => exact ⟨deeds, .hands 0 hcall h⟩
  | some k =>
    cases hslot : slot? w.rest k with
    | none =>
      rw [armCall_of_slot hcall, onSlot_of_no_place hslot]
      exact ⟨deeds, h⟩
    | some place => exact ⟨_, .schedules 0 hcall hslot h⟩

theorem cancel (k : Int) : Stays (Has n now) (cancel k : Run (Tape τ (Call τ)) τ Unit) := by
  rintro w ⟨deeds, h⟩
  cases hslot : slot? w.rest k with
  | none =>
    rw [Agenda.cancel, onSlot_of_no_place hslot]
    exact ⟨deeds, h⟩
  | some place => exact ⟨_, .cancels 0 hslot h⟩

theorem misarm (slot : Option Int) (kind : String) :
    Stays (Has n now) (misarm slot kind : Run (Tape τ (Call τ)) τ Unit) := by
  cases slot with
  | none => exact .stop _
  | some k => exact (cancel k).bind fun _ => (cancel k).bind fun _ => .stop _

theorem dropTimer (name : String) :
    Stays (Has n now) (dropTimer name : Run (Tape τ (Call τ)) τ Unit) := by
  refine Stays.of_still fun w => ?_
  cases hfind : w.rest.timers.find? (·.1 == name) with
  | none => exact dropTimer_of_no_name hfind
  | some handle =>
    -- a tape lets go of nothing
    rw [dropTimer_apply hfind]
    rfl

/-- A call that is fired by hand, whether or not it is claimed. -/
theorem ring {run : Item τ → Run (Tape τ (Call τ)) τ Unit}
    (hrun : ∀ item, Stays (Has n now) (run item)) {place : Int} {t : Timer τ (Call τ)}
    (h : Has n now w) (hkept : Timekeeper.kept? place w.clock = some t) :
    Has n now (ring run t w).2 := by
  rcases claim_cases t.serial t.call w with hclaim | ⟨w₁, hclaim⟩
  · rw [ring_of_not_claim hclaim]
    exact h
  · rw [ring_of_claim hclaim]
    have hrecorded := claimed h hkept hclaim
    rcases t with ⟨deadline, serial, slot, name, delay, items, again⟩
    refine Stays.bind_at (Stays.runAll hrun items _ hrecorded) fun _ w₂ _ hw₂ => ?_
    cases again with
    | zero => exact hw₂
    | succ again => exact hrun _ w₂ hw₂

end Past

/-! ### Moments -/

/-- The moments of an item: before it and after it, and those of the items inside the call that it
fires. -/
inductive Meets : ℕ → Item τ → Bench τ → Bench τ → Prop
  | before {fuel item w} : Meets fuel item w w
  | after {fuel item w} : Meets fuel item w (item.run fuel w).2
  | inside {fuel place w t w₁ done next rest w₂ w'} :
    Timekeeper.kept? place w.clock = some t → claim t.serial t.call w = (.ok true, w₁) →
    t.call.items = done ++ next :: rest →
    runAll (Item.run fuel) done (recorded t.call w₁) = (.ok (), w₂) → Meets fuel next w₂ w' →
    Meets (fuel + 1) (.fire place) w w'

/-- The moments of programs: code at any of them may go on with any item. -/
inductive Moment (start : Bench τ) : Bench τ → Prop
  | start : Moment start start
  | meets {w w'} (fuel : ℕ) (item : Item τ) : Moment start w → Meets fuel item w w' → Moment start w'

namespace Past

variable {n : ℕ} {now : τ} {w w' : Bench τ}

/-- **Whatever an item does has its history**, however it ends. -/
theorem run (fuel : ℕ) (item : Item τ) : Stays (Has n now) (item.run fuel) := by
  induction fuel generalizing item with
  | zero => exact .stop _
  | succ fuel ih =>
    cases item with
    | arm call => exact armCall call
    | misarm slot kind => exact misarm slot kind
    | dropTimer name => exact dropTimer name
    | cancel k => exact cancel k
    | advance delta => exact .of_still fun w => advance_still _ fuel w delta
    | advanceTo time => exact .of_still fun w => advanceTo_still _ fuel w time
    | advanceNowhere kind? => exact .of_still fun w => advanceNowhere_still _ fuel w kind?
    | idle most => exact .of_still fun w => drainAll_still _ w most _
    | fire place =>
      intro w hw
      cases hkept : Timekeeper.kept? place w.clock with
      | none =>
        rw [run_fire_of_no_place fuel hkept]
        exact hw
      | some t =>
        rw [run_fire fuel hkept]
        exact ring ih hw hkept
    | stop stop => exact .stop stop

theorem meets {fuel : ℕ} {item : Item τ} (h : Has n now w) (hmeets : Meets fuel item w w') :
    Has n now w' := by
  induction hmeets with
  | before => exact h
  | after => exact run _ _ _ h
  | @inside fuel _ _ _ _ done _ _ _ _ hkept hclaim _ hdone _ ih =>
    have hran := Stays.runAll (run fuel) done _ (claimed h hkept hclaim)
    rw [hdone] at hran
    exact ih hran

theorem of_moment (h : Moment (fresh n now) w) : Has n now w := by
  induction h with
  | start => exact ⟨[], .start⟩
  | meets fuel item _ hmeets ih => exact meets ih hmeets

end Past

/-- **Only what is current runs.** At every moment of every program on a tape, by what was done so
far, whichever history of the moment is taken: a slot is pending just while it has a current call. To
fire a call that is current runs it, with its slot empty; to fire any other changes nothing. What
tells them apart is that a slot that is pending is still in the generation that its current call took
along. No call ran but while it was current, and none more than once. -/
theorem only_current_calls_run {n : ℕ} {now : τ} {w : Bench τ} (h : Moment (fresh n now) w) :
    (∃ deeds, Past n now deeds w) ∧ ∀ deeds, Past n now deeds w →
      (∀ i slot, w.rest.slots[i]? = some slot →
        (slot.pending = true ↔ ∃ k, Slots.IsCurrent i k deeds)) ∧
      (∀ place t i, Timekeeper.kept? place w.clock = some t → t.call.owner? n = some (some i) →
        (Slots.IsCurrent i t.serial deeds → ∃ slot w₁, w₁.rest.slots[i]? = some slot ∧
          slot.pending = false ∧ Past n now (.runs i t.serial :: deeds) (recorded t.call w₁) ∧
          ∀ fuel, (Item.fire place).run (fuel + 1) w =
            t.call.body (Item.run fuel) (recorded t.call w₁)) ∧
        (¬Slots.IsCurrent i t.serial deeds →
          ∀ fuel, (Item.fire place).run (fuel + 1) w = (.ok (), w)) ∧
        ∃ slot generation, w.rest.slots[i]? = some slot ∧
          slot.taken.lookup t.serial = some generation ∧
          (generation = slot.generation ∧ slot.pending ↔ Slots.IsCurrent i t.serial deeds)) ∧
      (∀ after i k before, deeds = after ++ .runs i k :: before → Slots.IsCurrent i k before) ∧
      ∀ k, (deeds.filter (·.run? == some k)).length ≤ 1 := by
  refine ⟨Past.of_moment h, fun deeds hpast => ?_⟩
  have hagrees := hpast.agrees
  have hsound := hagrees.sound
  refine ⟨fun i slot hslot => ?_, fun place t i hkept ho => ⟨?_, ?_, ?_⟩, ?_, hsound.runs_once⟩
  · rw [Slot.pending, hagrees.armed i slot hslot, Option.isSome_iff_exists]
    exact exists_congr fun k => hsound.isCurrent_iff.symm
  · intro hcur
    obtain ⟨w₁, hclaim⟩ := (hagrees.claims_iff ho).mpr (hsound.isCurrent_iff.mp hcur)
    have hi : i < w.rest.slots.length := hagrees.slots ▸ lt_of_owner? ho
    have hrun := hpast.runs hkept ho hclaim
    rw [← hagrees.slots] at ho
    obtain ⟨slot, -, rfl⟩ := claim_eq ho hclaim
    refine ⟨slot.emptied, _, List.getElem?_set_self hi, rfl, hrun, fun fuel => ?_⟩
    rw [run_fire fuel hkept]
    exact ring_of_claim hclaim
  · intro hnot fuel
    rw [run_fire fuel hkept]
    refine ring_of_not_claim ((claim_cases t.serial t.call w).resolve_right fun hclaim => ?_)
    exact hnot (hsound.isCurrent_iff.mpr ((hagrees.claims_iff ho).mp hclaim))
  · have hslot := List.getElem?_eq_getElem (hagrees.slots.symm ▸ lt_of_owner? ho)
    have hscheduled := hagrees.handed _ _ i (getElem?_of_kept hkept) ho
    obtain ⟨generation, htaken⟩ := hagrees.taken i _ t.serial hslot hscheduled
    refine ⟨_, generation, hslot, htaken, ?_⟩
    rw [← Slot.armed_iff htaken, hagrees.armed i _ hslot, hsound.isCurrent_iff]
  · rintro after i k before rfl
    exact hsound.runs_current

/-- A call that puts the next one into its slot and then fires itself again: what it replaced never
runs, and it runs once. -/
theorem only_current_calls_run_nested : ∃ w : Bench ℤ, Moment (fresh 1 0) w ∧
    w.rest.slots.map Slot.armed = [some 2] ∧ w.rest.fired.map Fired.name = ["newer"] ∧
      (∃ deeds, Past 1 0 deeds w) ∧ ∀ deeds, Past 1 0 deeds w →
        (∃ k, Slots.IsCurrent 0 k deeds) ∧ ∀ k, (deeds.filter (·.run? == some k)).length ≤ 1 := by
  have hmoment : ∃ w : Bench ℤ, Moment (fresh 1 0) w ∧ w.rest.slots.map Slot.armed = [some 2] ∧
      w.rest.fired.map Fired.name = ["newer"] := by
    have hstart : Moment (fresh 1 (0 : ℤ)) _ := .start
    have holder := hstart.meets 1 (.arm (.mk (some 0) "older" 10 [] 0)) .after
    have hnewer := holder.meets 1 (.arm (.mk (some 0) "newer" 10
      [.arm (.mk (some 0) "next" 5 [] 0), .fire 1, .stop (.interrupt "")] 0)) .after
    have hstale := hnewer.meets 2 (.fire 0) .after
    have hinside := hstale.meets 4 (.fire (-1))
      (.inside rfl rfl (show _ = [_] ++ _ :: _ from rfl) rfl .after)
    exact ⟨_, hinside, by decide +kernel⟩
  obtain ⟨w, hmoment, hslots, hfired⟩ := hmoment
  obtain ⟨hled, hhistory⟩ := only_current_calls_run hmoment
  refine ⟨w, hmoment, hslots, hfired, hled, fun deeds hpast => ?_⟩
  obtain ⟨hpending, -, -, honce⟩ := hhistory deeds hpast
  obtain ⟨slot, rest, hw, harmed, -⟩ := List.map_eq_cons_iff.mp hslots
  refine ⟨(hpending 0 slot (by rw [hw]; rfl)).mp ?_, honce⟩
  rw [Slot.pending, harmed]
  rfl

end ByHand
end TunnelView.Agenda
