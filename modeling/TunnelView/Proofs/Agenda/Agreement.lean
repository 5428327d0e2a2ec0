import Mathlib.Data.List.Nodup
import Mathlib.Order.Nat
import TunnelView.Proofs.Agenda.Deeds
import TunnelView.Proofs.Clock

/-!
# What is done on an agenda is what its clock holds

The clock of an agenda holds just the calls that its deeds leave, under serial numbers of their own,
and every slot is armed with the number of its call. This is so after every deed, whoever did it, so
it is so at any moment, inside calls as well as outside. There is one lemma for letting go of a call
and one for taking one on, and the deeds are put together from these.

Key definitions: `Agenda.Agrees`.
Key theorems: `Agenda.Agrees.let_go`, `Agenda.Agrees.take_on`, `Agenda.Agrees.step`,
`Agenda.Agrees.untouched`, `Agenda.Trace.agrees`, `Agenda.Agrees.pending`.
-/

namespace TunnelView.Agenda

variable {τ : Type} [Zero τ] [Add τ] [LT τ] [DecidableLT τ]

/-- The call as the clock holds it. -/
def Entry.timer (e : Entry τ) : Timer τ (Call τ) :=
  ⟨e.time + delayed e.call.delay, e.serial, e.call⟩

/-- The calls on a clock are those that have not come to their end, and the slots are armed with
their numbers. -/
structure Agrees (n : ℕ) (deeds : List (Deed τ)) (w : Desk τ) : Prop where
  slots : w.rest.slots.length = n
  fresh : ∀ t ∈ w.clock.timers, t.serial < w.clock.next
  nodup : (w.clock.timers.map Timer.serial).Nodup
  owned : ∀ t ∈ w.clock.timers, ∃ o, t.call.owner? n = some o
  held : ∀ o, (w.clock.timers.filter (isOf n o)).Perm ((standing deeds o).map Entry.timer)
  armed : ∀ i slot, w.rest.slots[i]? = some slot → slot.armed = (latest? i deeds).map Entry.serial
  /-- Plain timers that are known by name have numbers that no slot's call has. -/
  handles : ∀ h ∈ w.rest.timers, h.2 < w.clock.next ∧
    ∀ t ∈ w.clock.timers, t.serial = h.2 → t.call.owner? n = some none

namespace Agrees

variable {n : ℕ} {deeds : List (Deed τ)} {w w' : Desk τ} {o : Option ℕ} {e : Entry τ} {serial : ℕ}

theorem start (n : ℕ) (now : τ) : Agrees n [] (Agenda.fresh n now) where
  slots := List.length_replicate
  fresh _ ht := by contradiction
  nodup := .nil
  owned _ ht := by contradiction
  held o := by
    cases o <;> exact .refl _
  armed i slot h := by
    obtain ⟨-, rfl⟩ := List.mem_replicate.mp (List.mem_of_getElem? h)
    rfl
  handles _ hh := by contradiction

theorem mem_standing (h : Agrees n deeds w) (he : e ∈ standing deeds o) :
    e.timer ∈ w.clock.timers ∧ e.call.owner? n = some o := by
  have hmem := (h.held o).mem_iff.mpr (List.mem_map_of_mem he)
  obtain ⟨ht, ho⟩ := List.mem_filter.mp hmem
  exact ⟨ht, eq_of_beq ho⟩

/-- A call on the clock has not come to its end. -/
theorem exists_entry (h : Agrees n deeds w) {t : Timer τ (Call τ)} (ht : t ∈ w.clock.timers)
    (ho : t.call.owner? n = some o) : ∃ e ∈ standing deeds o, e.timer = t := by
  have hmem : t ∈ w.clock.timers.filter (isOf n o) :=
    List.mem_filter.mpr ⟨ht, beq_iff_eq.mpr ho⟩
  exact List.mem_map.mp ((h.held o).mem_iff.mp hmem)

theorem eq_of_serial (h : Agrees n deeds w) {t u : Timer τ (Call τ)} (ht : t ∈ w.clock.timers)
    (hu : u ∈ w.clock.timers) (hserial : t.serial = u.serial) : t = u :=
  List.inj_on_of_nodup_map h.nodup ht hu hserial

/-- The same, where nothing was armed or let go of. -/
theorem waits (h : Agrees n deeds w) (hslots : w'.rest.slots = w.rest.slots)
    (htimers : w'.rest.timers = w.rest.timers) (hclock : w'.clock.timers = w.clock.timers)
    (hnext : w'.clock.next = w.clock.next) : Agrees n (.waits :: deeds) w' where
  slots := hslots ▸ h.slots
  fresh := by
    rw [hclock, hnext]
    exact h.fresh
  nodup := hclock ▸ h.nodup
  owned := hclock ▸ h.owned
  held o := by
    rw [hclock, standing_waits]
    exact h.held o
  armed := hslots ▸ h.armed
  handles := by
    rw [htimers, hclock, hnext]
    exact h.handles

/-- Where a call has come to its end, nothing stands any more under its number. -/
theorem standing_ends (h : Agrees n deeds w)
    (howner : ∀ t ∈ w.clock.timers, t.serial = serial → t.call.owner? n = some o)
    (hlast : ∀ i e, o = some i → latest? i deeds = some e → e.serial = serial) (o' : Option ℕ) :
    standing (.ends o serial :: deeds) o' = (standing deeds o').filter (·.serial != serial) := by
  by_cases ho : o = o'
  · subst ho
    cases o with
    | none => rfl
    | some i =>
      have hends : standing (.ends (some i) serial :: deeds) (some i) = [] :=
        congrArg Option.toList (if_pos rfl)
      rw [hends, eq_comm, List.filter_eq_nil_iff]
      intro e he
      have hserial := hlast i e rfl (Option.mem_toList.mp he)
      simp [hserial]
  · rw [standing_ends_of_ne ho, eq_comm, List.filter_eq_self]
    intro e he
    -- a call of another owner has another number
    obtain ⟨ht, howned⟩ := h.mem_standing he
    have hne : e.serial ≠ serial := fun hserial =>
      ho (Option.some.inj ((howner e.timer ht hserial).symm.trans howned))
    simpa using hne

/-- Where a deed changes the slot that it is about, the slots stay armed with their numbers. -/
theorem armed_setSlot (h : Agrees n deeds w) {d : Deed τ} (hd : d.owner? = some o) {new : Slot}
    (hnew : ∀ i, o = some i → new.armed = (latest? i (d :: deeds)).map Entry.serial) {i : ℕ}
    {slot : Slot} (hslot : (setSlot new w.rest.slots o)[i]? = some slot) :
    slot.armed = (latest? i (d :: deeds)).map Entry.serial := by
  obtain ⟨ho, rfl⟩ | ⟨ho, hslot⟩ := getElem?_setSlot hslot
  · exact hnew i ho
  · have hother : d.owner? ≠ some (some i) := fun h => ho (Option.some.inj (hd.symm.trans h))
    rw [latest?_cons_of_ne hother]
    exact h.armed i slot hslot

/-- A call comes to its end: its owner holds it no more. -/
theorem let_go (h : Agrees n deeds w)
    (howner : ∀ t ∈ w.clock.timers, t.serial = serial → t.call.owner? n = some o)
    (hlast : ∀ i e, o = some i → latest? i deeds = some e → e.serial = serial) (new : Slot)
    (hnew : new.armed = none) (hslots : w'.rest.slots = setSlot new w.rest.slots o)
    (htimers : w'.rest.timers = w.rest.timers)
    (hclock : w'.clock.timers = w.clock.timers.filter (·.serial != serial))
    (hnext : w'.clock.next = w.clock.next) : Agrees n (.ends o serial :: deeds) w' := by
  have hold : ∀ {t}, t ∈ w'.clock.timers → t ∈ w.clock.timers := fun ht => by
    rw [hclock] at ht
    exact (List.mem_filter.mp ht).1
  constructor
  case slots => rw [hslots, length_setSlot, h.slots]
  case fresh =>
    rw [hnext]
    exact fun t ht => h.fresh t (hold ht)
  case nodup =>
    rw [hclock]
    exact h.nodup.sublist (List.filter_sublist.map _)
  case owned => exact fun t ht => h.owned t (hold ht)
  case held =>
    intro o'
    rw [hclock, h.standing_ends howner hlast, List.filter_filter]
    simp only [Bool.and_comm]
    rw [← List.filter_filter]
    have hfilter := (h.held o').filter (·.serial != serial)
    rwa [List.filter_map] at hfilter
  case armed =>
    intro i slot hslot
    rw [hslots] at hslot
    refine h.armed_setSlot rfl (fun j hj => ?_) hslot
    have hends : latest? j (.ends o serial :: deeds) = none := if_pos hj
    rw [hends, hnew]
    rfl
  case handles =>
    rw [htimers, hnext]
    exact fun handle hh => ⟨(h.handles handle hh).1, fun t ht => (h.handles handle hh).2 t (hold ht)⟩

/-- A call is put on the clock: its owner, who held none if it is a slot, holds it. -/
theorem take_on (h : Agrees n deeds w) (howner : e.call.owner? n = some e.owner)
    (hserial : e.serial = w.clock.next) (hfree : ∀ i, e.owner = some i → latest? i deeds = none)
    (new : Slot) (hnew : new.armed = some e.serial)
    (hslots : w'.rest.slots = setSlot new w.rest.slots e.owner)
    (htimers : ∀ handle ∈ w'.rest.timers,
      handle ∈ w.rest.timers ∨ handle.2 = e.serial ∧ e.owner = none)
    (hclock : w'.clock.timers.Perm (e.timer :: w.clock.timers))
    (hnext : w'.clock.next = w.clock.next + 1) : Agrees n (.arms e :: deeds) w' := by
  have hmem : ∀ {t}, t ∈ w'.clock.timers → t = e.timer ∨ t ∈ w.clock.timers := fun ht =>
    List.mem_cons.mp (hclock.mem_iff.mp ht)
  constructor
  case slots => rw [hslots, length_setSlot, h.slots]
  case fresh =>
    intro t ht
    rw [hnext]
    obtain rfl | ht := hmem ht
    · exact Nat.lt_succ_of_le hserial.le
    · exact Nat.lt_succ_of_lt (h.fresh t ht)
  case nodup =>
    rw [(hclock.map Timer.serial).nodup_iff, List.map_cons, List.nodup_cons]
    refine ⟨fun hold => ?_, h.nodup⟩
    obtain ⟨t, ht, hts⟩ := List.mem_map.mp hold
    exact (h.fresh t ht).ne (hts.trans hserial)
  case owned =>
    intro t ht
    obtain rfl | ht := hmem ht
    · exact ⟨_, howner⟩
    · exact h.owned t ht
  case held =>
    intro o
    refine (hclock.filter _).trans ?_
    by_cases ho : e.owner = o
    · subst ho
      have hnew : isOf n e.owner e.timer := beq_iff_eq.mpr howner
      rw [List.filter_cons_of_pos hnew, standing_arms_self hfree, List.map_cons]
      exact (h.held e.owner).cons _
    · have hnew : ¬isOf n o e.timer := fun hnew =>
        ho (Option.some.inj (howner.symm.trans (eq_of_beq hnew)))
      rw [List.filter_cons_of_neg hnew, standing_arms_of_ne ho]
      exact h.held o
  case armed =>
    intro i slot hslot
    rw [hslots] at hslot
    refine h.armed_setSlot rfl (fun j hj => ?_) hslot
    have harms : latest? j (.arms e :: deeds) = some e := if_pos hj
    rw [harms, hnew]
    rfl
  case handles =>
    intro handle hh
    rw [hnext]
    obtain hold | ⟨hnew, ho⟩ := htimers handle hh
    · obtain ⟨hlt, hplain⟩ := h.handles handle hold
      refine ⟨Nat.lt_succ_of_lt hlt, fun t ht hts => ?_⟩
      obtain rfl | ht := hmem ht
      · exact absurd (hserial.symm.trans hts) hlt.ne'
      · exact hplain t ht hts
    · refine ⟨Nat.lt_succ_of_le (hnew.trans hserial).le, fun t ht hts => ?_⟩
      obtain rfl | ht := hmem ht
      · rw [← ho]
        exact howner
      · exact absurd (hts.trans (hnew.trans hserial)) (h.fresh t ht).ne

/-- What is agreed on depends on the deeds by what they leave standing only. -/
theorem congr (h : Agrees n deeds w) {deeds' : List (Deed τ)}
    (hstanding : ∀ o, standing deeds' o = standing deeds o) : Agrees n deeds' w :=
  { h with
    held := fun o => by
      rw [hstanding]
      exact h.held o
    armed := fun i slot hslot => by
      have hlatest : latest? i deeds' = latest? i deeds := by
        simpa [standing] using congrArg List.head? (hstanding (some i))
      rw [hlatest]
      exact h.armed i slot hslot }

/-- A slot is emptied that is armed. -/
theorem empty (h : Agrees n deeds w) {i : ℕ} {slot : Slot} (hslot : w.rest.slots[i]? = some slot)
    (harmed : slot.armed = some serial) : Agrees n (.ends (some i) serial :: deeds)
      ⟨w.clock.disarm serial, { w.rest with slots := w.rest.slots.set i slot.released }⟩ := by
  have hlatest := h.armed i slot hslot
  rw [harmed] at hlatest
  obtain ⟨e, he, hserial⟩ := Option.map_eq_some_iff.mp hlatest.symm
  obtain ⟨ht, howner⟩ := h.mem_standing (o := some i) (Option.mem_toList.mpr he)
  refine h.let_go (fun t ht' hts => ?_) (fun j e' hj he' => ?_) _ rfl rfl rfl rfl rfl
  · rw [h.eq_of_serial ht' ht (hts.trans hserial.symm)]
    exact howner
  · obtain rfl := Option.some.inj hj
    rwa [Option.some.inj (he'.symm.trans he)]

/-- A slot is emptied that is not armed. -/
theorem clear (h : Agrees n deeds w) {i : ℕ} {slot : Slot} (hslot : w.rest.slots[i]? = some slot)
    (harmed : slot.armed = none) : Agrees n (.clears i :: deeds)
      ⟨w.clock, { w.rest with slots := w.rest.slots.set i slot.released }⟩ := by
  have hlatest := h.armed i slot hslot
  rw [harmed] at hlatest
  have hsame := h.congr (standing_clears i deeds)
  refine { hsame with slots := List.length_set.trans h.slots, armed := fun j slot' hslot' => ?_ }
  refine h.armed_setSlot (o := some i) rfl (fun k hk => ?_) hslot'
  rw [← Option.some.inj hk]
  exact hlatest

/-- What a slot should hold is what the clock holds for it. -/
theorem own_eq (h : Agrees n deeds w) (i : ℕ) : w.clock.timers.filter (isOf n (some i)) =
    (latest? i deeds).toList.map Entry.timer := by
  have hheld := h.held (some i)
  rw [standing] at hheld
  cases hlatest : latest? i deeds with
  | none =>
    rw [hlatest] at hheld
    exact List.perm_nil.mp hheld
  | some e =>
    rw [hlatest] at hheld
    exact List.perm_singleton.mp hheld

theorem pending_slots (h : Agrees n deeds w) :
    w.rest.slots.countP Slot.pending = (List.range n).countP fun i => (latest? i deeds).isSome := by
  have hmap : w.rest.slots.map Slot.pending =
      (List.range n).map fun i => (latest? i deeds).isSome := by
    refine List.ext_getElem (by simp [h.slots]) fun i hi _ => ?_
    rw [List.length_map] at hi
    rw [List.getElem_map, List.getElem_map, List.getElem_range, Slot.pending,
      h.armed i _ (List.getElem?_eq_getElem hi), Option.isSome_map]
  have hcount := congrArg (List.countP id) hmap
  rwa [List.countP_map, List.countP_map] at hcount

/-- The calls on the clock that are no plain timers are those of the slots, each once. -/
theorem slots_perm (h : Agrees n deeds w) : (w.clock.timers.filter (!isOf n none ·)).Perm
    ((List.range n).filterMap fun i => (latest? i deeds).map Entry.timer) := by
  have hmem : ∀ {i t}, t ∈ (latest? i deeds).map Entry.timer →
      t ∈ w.clock.timers ∧ t.call.owner? n = some (some i) := by
    intro i t ht
    obtain ⟨e, he, rfl⟩ := Option.map_eq_some_iff.mp ht
    exact h.mem_standing (o := some i) (Option.mem_toList.mpr he)
  refine (List.perm_ext_iff_of_nodup ?_ ?_).mpr fun t => ?_
  · exact (List.Nodup.of_map _ h.nodup).filter _
  · refine List.nodup_range.filterMap fun i j t hi hj => ?_
    exact Option.some.inj (Option.some.inj ((hmem hi).2.symm.trans (hmem hj).2))
  · rw [List.mem_filter, List.mem_filterMap]
    constructor
    · rintro ⟨ht, hslot⟩
      obtain ⟨o, ho⟩ := h.owned t ht
      cases o with
      | none => simp [isOf, ho] at hslot
      | some i =>
        obtain ⟨e, he, rfl⟩ := h.exists_entry ht ho
        have hi : i < n := lt_of_owner? ho
        exact ⟨i, List.mem_range.mpr hi, Option.map_eq_some_iff.mpr ⟨e, Option.mem_toList.mp he, rfl⟩⟩
    · rintro ⟨i, -, hi⟩
      obtain ⟨ht, ho⟩ := hmem hi
      exact ⟨ht, by simp [isOf, ho]⟩

/-- There are as many calls on the clock as slots are pending and plain timers are left. -/
theorem pending (h : Agrees n deeds w) :
    w.clock.pending = w.rest.slots.countP Slot.pending + (plain deeds).length := by
  have hplain := (h.held none).length_eq
  have hslots := h.slots_perm.length_eq
  rw [List.length_map] at hplain
  rw [List.length_filterMap_eq_countP] at hslots
  simp only [Option.isSome_map] at hslots
  rw [Clock.pending, List.length_eq_length_filter_add (isOf n none), hplain, hslots,
    h.pending_slots, Nat.add_comm]
  rfl

end Agrees

variable [LE τ] [DecidableLE τ]

/-- A call is put into a slot, in place of the one that was there. -/
theorem Agrees.schedule {n : ℕ} {deeds : List (Deed τ)} {w : Desk τ} {i : ℕ} {slot : Slot}
    {call : Call τ} (h : Agrees n deeds w) (hslot : w.rest.slots[i]? = some slot)
    (howner : call.owner? n = some (some i)) :
    Agrees n (.arms ⟨some i, w.clock.now, w.clock.next, call⟩ :: deeds)
      ⟨(slot.schedule call.delay call w.clock).2,
        { w.rest with slots := w.rest.slots.set i (slot.schedule call.delay call w.clock).1 }⟩ := by
  rw [Slot.schedule]
  cases harmed : slot.armed with
  | none =>
    have hfree : latest? i deeds = none := by
      rw [← Option.map_eq_none_iff, ← h.armed i slot hslot, harmed]
    rw [Slot.cancel_of_empty harmed]
    refine h.take_on howner rfl (fun j hj => ?_) _ rfl rfl (fun _ hh => .inl hh)
      (Clock.insert_perm _ _) rfl
    rwa [← Option.some.inj hj]
  | some serial =>
    rw [Slot.cancel_of_armed harmed]
    -- the call that was there comes to its end first, which leaves no trace in what is standing
    have hends : ∀ o, standing (.arms ⟨some i, w.clock.now, w.clock.next, call⟩ :: deeds) o =
        standing (.arms ⟨some i, w.clock.now, w.clock.next, call⟩ ::
          .ends (some i) serial :: deeds) o := by
      intro o
      by_cases ho : some i = o
      · subst ho
        exact congrArg Option.toList ((if_pos rfl).trans (if_pos rfl).symm)
      · rw [standing_arms_of_ne ho, standing_arms_of_ne ho, standing_ends_of_ne ho]
    refine Agrees.congr ?_ hends
    exact (h.empty hslot harmed).take_on howner rfl (fun j hj => if_pos hj) _ rfl
      (List.set_set ..).symm (fun _ hh => .inl hh) (Clock.insert_perm _ _) rfl

/-- A deed that is not about a slot leaves it as it is. -/
theorem Step.getElem?_slots {w w' : Desk τ} {d : Deed τ} (hstep : Step w d w') {i : ℕ}
    (hd : d.owner? ≠ some (some i)) : w'.rest.slots[i]? = w.rest.slots[i]? := by
  cases hstep with
  | schedules fuel hcall hslot =>
    rw [run_arm, armCall_of_slot hcall, onSlot_apply hslot]
    exact List.getElem?_set_ne fun hj => hd (by rw [← hj]; rfl)
  | arms fuel hcall =>
    obtain ⟨name, harm⟩ := armCall_of_plain hcall w
    rw [run_arm, harm]
  | cancels fuel hslot | clears fuel hslot =>
    rw [run_cancel, cancel, onSlot_apply hslot]
    exact List.getElem?_set_ne fun hj => hd (by rw [← hj]; rfl)
  | @fires limit t clock o _ hpop howner hclaim =>
    obtain ⟨slot, -, rfl⟩ := claim_eq (w := { w with clock }) howner hclaim
    cases o with
    | none => rfl
    | some j => exact List.getElem?_set_ne fun hj => hd (by rw [← hj]; rfl)
  | drops fuel hfind => rw [run_dropTimer, dropTimer_apply hfind]
  | moves | tidies | notes => rfl

/-- **Every deed keeps the clock and the slots in agreement.** -/
theorem Agrees.step {n : ℕ} {deeds : List (Deed τ)} {w w' : Desk τ} {d : Deed τ}
    (h : Agrees n deeds w) (hstep : Step w d w') : Agrees n (d :: deeds) w' := by
  cases hstep with
  | @schedules call k i slot fuel hcall hslot =>
    obtain ⟨hplace, hget⟩ := slot?_eq_some.mp hslot
    rw [h.slots] at hplace
    rw [run_arm, armCall_of_slot hcall, onSlot_apply hslot]
    exact h.schedule hget (owner?_of_slot hcall hplace)
  | @arms call fuel hcall =>
    obtain ⟨name, harm⟩ := armCall_of_plain hcall w
    rw [run_arm, harm]
    refine h.take_on (owner?_of_plain hcall n) rfl nofun (Slot.take w.clock.next {}) rfl rfl
      (fun handle hh => ?_) (Clock.insert_perm _ _) rfl
    obtain rfl | hh := List.mem_cons.mp hh
    · exact .inr ⟨rfl, rfl⟩
    · exact .inl hh
  | @cancels k i slot serial fuel hslot harmed =>
    rw [run_cancel, cancel, onSlot_apply hslot, Slot.cancel_of_armed harmed]
    exact h.empty (slot?_eq_some.mp hslot).2 harmed
  | @clears k i slot fuel hslot harmed =>
    rw [run_cancel, cancel, onSlot_apply hslot, Slot.cancel_of_empty harmed]
    exact h.clear (slot?_eq_some.mp hslot).2 harmed
  | drops fuel hfind =>
    rw [run_dropTimer, dropTimer_apply hfind]
    have hplain := (h.handles _ (List.mem_of_find?_eq_some hfind)).2
    exact h.let_go hplain nofun {} rfl rfl rfl rfl rfl
  | @fires limit t clock o _ hpop howner hclaim =>
    obtain ⟨slot, -, rfl⟩ := claim_eq (w := { w with clock }) howner hclaim
    rw [h.slots] at howner
    obtain ⟨ht, hnext, htimers⟩ := Clock.popDue_some hpop
    rw [eraseP_serial t.serial h.nodup] at htimers
    refine h.let_go (fun u hu hus => ?_) (fun i e ho he => ?_) _ rfl rfl rfl htimers hnext
    · rw [h.eq_of_serial hu ht hus]
      exact howner
    · subst ho
      obtain ⟨e', he', rfl⟩ := h.exists_entry ht howner
      rw [Option.some.inj (he.symm.trans (Option.mem_toList.mp he'))]
      rfl
  | moves => exact h.waits rfl rfl rfl rfl
  | tidies => exact h.waits rfl rfl rfl rfl
  | notes => exact h.waits rfl rfl rfl rfl

/-- A deed that is not about a slot leaves it and its call as they are. -/
theorem Agrees.untouched {n : ℕ} {deeds : List (Deed τ)} {w w' : Desk τ} {d : Deed τ}
    (h : Agrees n deeds w) (hstep : Step w d w') {i : ℕ} (hd : d.owner? ≠ some (some i)) :
    w'.clock.timers.filter (isOf n (some i)) = w.clock.timers.filter (isOf n (some i)) ∧
      w'.rest.slots[i]? = w.rest.slots[i]? := by
  rw [h.own_eq, (h.step hstep).own_eq, latest?_cons_of_ne hd]
  exact ⟨rfl, hstep.getElem?_slots hd⟩

/-- **The clock and the slots agree at any moment.** -/
theorem Trace.agrees {n : ℕ} {now : τ} {deeds : List (Deed τ)} {w : Desk τ}
    (h : Trace (fresh n now) deeds w) : Agrees n deeds w := by
  induction h with
  | start => exact .start n now
  | step _ hstep ih => exact ih.step hstep

end TunnelView.Agenda
