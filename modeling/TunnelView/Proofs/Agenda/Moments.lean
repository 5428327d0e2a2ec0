import Mathlib.Algebra.Order.Group.Int
import Mathlib.Algebra.Ring.Int.Defs
import TunnelView.Proofs.Agenda.Agreement
import TunnelView.Proofs.Stays

/-!
# Slots and clock agree at every moment of every program

Items run calls, whose items run further calls, down to any depth, and any of them may stop. A
moment of a program is when one of its items is about to run, or has come to its end, however deep
inside calls that is. Whatever led there is a series of deeds, so slots and clock agree then, and so
they do after each deed that may come next.

The limits on how many calls fire are left out of what a moment is, so there may be moments beyond
those that a run gets to.

Key definitions: `Agenda.Rings`, `Agenda.Item.Meets`, `Agenda.Moment`, `Agenda.Kept`.
Key theorems: `Agenda.Kept.run`, `Agenda.Kept.meets`, `Agenda.slots_and_clock_agree`.
-/

namespace TunnelView.Agenda

variable {τ : Type}

theorem Stays.runAll {C : Type} {I : Timed C (Agenda τ) → Prop} {run : Item τ → Run C τ Unit}
    (hrun : ∀ item, Stays I (run item)) (items : List (Item τ)) : Stays I (runAll run items) := by
  induction items with
  | nil => exact .pure ()
  | cons item items ih => exact (hrun item).bind fun _ => ih

variable [Zero τ] [Add τ] [LT τ] [DecidableLT τ] [LE τ] [DecidableLE τ]

/-! ### Moments -/

/-- What a call does when it fires. -/
def Call.items : Call τ → List (Item τ)
  | .mk _ _ _ items _ => items

def Call.name : Call τ → String
  | .mk _ name _ _ _ => name

/-- A desk with the firing of a call recorded. -/
def recorded (call : Call τ) (w : Desk τ) : Desk τ :=
  { w with rest.fired := ⟨call.name, w.clock.now, w.rest.pending⟩ :: w.rest.fired }

/-- While all that is due by a limit fires, a call is taken off the clock, and that leaves a desk. -/
inductive Rings (fire : Timed.Fire (Clock τ (Call τ)) (Agenda τ) τ (Call τ)) (limit : Option τ) :
    Desk τ → Timer τ (Call τ) → Desk τ → Prop
  | first {w t clock} : w.clock.popDue limit = (some t, clock) → Rings fire limit w t { w with clock }
  | later {w t clock w₁ u w'} : w.clock.popDue limit = (some t, clock) →
    fire t { w with clock } = (.ok (), w₁) → Rings fire limit w₁ u w' → Rings fire limit w u w'

/-- The limit by which an item lets calls fire, if it does. -/
def Item.limit? (w : Desk τ) : Item τ → Option (Option τ)
  | .advance delta => if delta < 0 then none else some (some (w.clock.now + delta))
  | .advanceTo time => some (some time)
  | .advanceNowhere none | .idle _ => some none
  | _ => none

/-- The moments of an item: before it and after it, and those of the items inside the calls that it
lets fire. -/
inductive Item.Meets : ℕ → Item τ → Desk τ → Desk τ → Prop
  | before {fuel item w} : Meets fuel item w w
  | after {fuel item w} : Meets fuel item w (item.run fuel w).2
  | inside {fuel item limit w t w₁ w₂ done next rest w₃ w'} : item.limit? w = some limit →
    Rings (ring (Item.run fuel)) limit w t w₁ → claim t.serial t.call w₁ = (.ok true, w₂) →
    t.call.items = done ++ next :: rest →
    runAll (Item.run fuel) done (recorded t.call w₂) = (.ok (), w₃) → Meets fuel next w₃ w' →
    Meets (fuel + 1) item w w'

/-- The moments of programs: code at any of them may go on with any item. -/
inductive Moment (start : Desk τ) : Desk τ → Prop
  | start : Moment start start
  | meets {w w'} (fuel : ℕ) (item : Item τ) : Moment start w → item.Meets fuel w w' → Moment start w'

/-! ### What is kept at every moment -/

/-- Whether something that holds of a desk is kept by all that is done there. A call that falls due
has to be claimed, and is then recorded. -/
structure Kept (I : Desk τ → Prop) : Prop where
  arm : ∀ {w} (call : Call τ), I w → I (armCall call w).2
  cancel : ∀ {w} (k : Int), I w → I (Agenda.cancel k w).2
  dropTimer : ∀ {w} (name : String), I w → I (Agenda.dropTimer name w).2
  tidied : ∀ {w}, I w → I { w with clock := w.clock.tidied }
  moveTo : ∀ {w} (time : τ), I w → w.clock.popDue (some time) = (none, w.clock) →
    I { w with clock := w.clock.moveTo time }
  fires : ∀ {w limit t clock}, I w → w.clock.popDue limit = (some t, clock) →
    ∃ w', claim t.serial t.call { w with clock } = (.ok true, w') ∧ I (recorded t.call w')

namespace Kept

variable {I : Desk τ → Prop} {w w' : Desk τ}

theorem misarm (hI : Kept I) (slot : Option Int) (kind : String) :
    Stays I (misarm slot kind : Run (Clock τ (Call τ)) τ Unit) := by
  cases slot with
  | none => exact .stop _
  | some k =>
    have hcancel : Stays I (Agenda.cancel k) := fun _ hw => hI.cancel k hw
    exact hcancel.bind fun _ => hcancel.bind fun _ => .stop _

/-- A call that falls due, from taking it off the clock to its end, if each of its items keeps what
is kept. -/
theorem ring {run : Item τ → Run (Clock τ (Call τ)) τ Unit} (hI : Kept I)
    (hrun : ∀ item, Stays I (run item)) (hw : I w) {limit : Option τ} {t : Timer τ (Call τ)}
    {clock : Clock τ (Call τ)} (hpop : w.clock.popDue limit = (some t, clock)) :
    I (ring run t { w with clock }).2 := by
  obtain ⟨w₁, hclaim, hrecorded⟩ := hI.fires hw hpop
  rw [Agenda.ring, Act.bind_apply, hclaim]
  rcases t with ⟨deadline, serial, slot, name, delay, items, again⟩
  refine Stays.bind_at hrecorded fun _ w₂ _ hw₂ => ?_
  refine Stays.bind_at (Stays.runAll hrun items w₂ hw₂) fun _ w₃ _ hw₃ => ?_
  cases again with
  | zero => exact hw₃
  | succ again => exact hrun _ w₃ hw₃

/-- **Whatever an item does keeps what is kept**, however it ends. -/
theorem run (hI : Kept I) (fuel : ℕ) (item : Item τ) : Stays I (item.run fuel) := by
  induction fuel generalizing item with
  | zero => exact .stop _
  | succ fuel ih =>
    have hfire : ∀ {w : Desk τ} {limit t clock}, I w → w.clock.popDue limit = (some t, clock) →
        I (Agenda.ring (Item.run fuel) t { w with clock }).2 := fun hw hpop => hI.ring ih hw hpop
    cases item with
    | arm call => exact fun _ hw => hI.arm call hw
    | misarm slot kind => exact hI.misarm slot kind
    | dropTimer name => exact fun _ hw => hI.dropTimer name hw
    | cancel k => exact fun _ hw => hI.cancel k hw
    | advance delta => exact .advance_past hI.tidied hfire hI.moveTo fuel delta
    | advanceTo time => exact .advanceTo_past hI.tidied hfire hI.moveTo fuel time
    | advanceNowhere kind? => exact .advanceNowhere hI.tidied hfire fuel kind?
    | idle most => exact .drainAll hI.tidied hfire most _
    | fire i => exact .world fun w => .stop _
    | stop stop => exact .stop stop

theorem rings (hI : Kept I) {fuel : ℕ} {limit : Option τ} {t : Timer τ (Call τ)} (hw : I w)
    (hrings : Rings (Agenda.ring (Item.run fuel)) limit w t w') : ∃ w₀ clock, I w₀ ∧
      w₀.clock.popDue limit = (some t, clock) ∧ w' = { w₀ with clock } := by
  induction hrings with
  | first hpop => exact ⟨_, _, hw, hpop, rfl⟩
  | later hpop hfire _ ih =>
    have hfired := hI.ring (hI.run fuel) hw hpop
    rw [hfire] at hfired
    exact ih hfired

/-- The moments of an item, however deep inside calls they are. -/
theorem meets (hI : Kept I) {fuel : ℕ} {item : Item τ} (hw : I w) (hmeets : item.Meets fuel w w') :
    I w' := by
  induction hmeets with
  | before => exact hw
  | after => exact hI.run _ _ _ hw
  | @inside fuel _ _ _ t _ w₂ done _ _ _ _ _ hrings hclaim _ hdone _ ih =>
    obtain ⟨w₀, clock, h₀, hpop, rfl⟩ := hI.rings hw hrings
    obtain ⟨w₁, hclaim', hrecorded⟩ := hI.fires h₀ hpop
    obtain rfl : w₂ = w₁ := congrArg Prod.snd (hclaim.symm.trans hclaim')
    have hran := Stays.runAll (hI.run fuel) done _ hrecorded
    rw [hdone] at hran
    exact ih hran

/-- What is kept holds at every moment that comes after one where it does. -/
theorem of_moment {start : Desk τ} (hI : Kept I) (hstart : I start) (h : Moment start w) : I w := by
  induction h with
  | start => exact hstart
  | meets fuel item _ hmeets ih => exact hI.meets ih hmeets

end Kept

/-! ### Deeds lead to every moment -/

/-- A desk that was reached by deeds from one with so many empty slots. -/
def Reached (n : ℕ) (now : τ) (w : Desk τ) : Prop := ∃ deeds, Trace (fresh n now) deeds w

namespace Reached

variable {n : ℕ} {now : τ} {w w' : Desk τ}

theorem step {d : Deed τ} (h : Reached n now w) (hstep : Step w d w') : Reached n now w' := by
  obtain ⟨deeds, htrace⟩ := h
  exact ⟨d :: deeds, htrace.step hstep⟩

theorem armCall (call : Call τ) (h : Reached n now w) : Reached n now (armCall call w).2 := by
  cases hcall : call.slot with
  | none => exact h.step (.arms 0 hcall)
  | some k =>
    cases hslot : slot? w.rest k with
    | none =>
      rw [armCall_of_slot hcall, onSlot_of_no_place hslot]
      exact h
    | some place => exact h.step (.schedules 0 hcall hslot)

theorem cancel (k : Int) (h : Reached n now w) : Reached n now (cancel k w).2 := by
  cases hslot : slot? w.rest k with
  | none =>
    rw [Agenda.cancel, onSlot_of_no_place hslot]
    exact h
  | some place =>
    obtain ⟨i, slot⟩ := place
    cases harmed : slot.armed with
    | some serial => exact h.step (.cancels 0 hslot harmed)
    | none => exact h.step (.clears 0 hslot harmed)

theorem dropTimer (name : String) (h : Reached n now w) :
    Reached n now (dropTimer name w).2 := by
  cases hfind : w.rest.timers.find? (·.1 == name) with
  | none =>
    rw [dropTimer_of_no_name hfind]
    exact h
  | some handle => exact h.step (.drops 0 hfind)

/-- The call that falls due is claimed by its owner. -/
theorem claims (h : Reached n now w) {limit : Option τ} {t : Timer τ (Call τ)}
    {clock : Clock τ (Call τ)} (hpop : w.clock.popDue limit = (some t, clock)) :
    ∃ o, t.call.owner? w.rest.slots.length = some o ∧
      ∃ w', claim t.serial t.call { w with clock } = (.ok true, w') := by
  obtain ⟨deeds, htrace⟩ := h
  have hagrees := htrace.agrees
  obtain ⟨ht, -, -⟩ := Clock.popDue_some hpop
  obtain ⟨o, ho⟩ := hagrees.owned t ht
  refine ⟨o, hagrees.slots ▸ ho, ?_⟩
  rw [← hagrees.slots] at ho
  cases o with
  | none => exact ⟨_, claim_of_armed (w := { w with clock }) {} ho nofun⟩
  | some i =>
    obtain ⟨slot, hget⟩ : ∃ slot, w.rest.slots[i]? = some slot :=
      ⟨_, List.getElem?_eq_getElem (lt_of_owner? ho)⟩
    obtain ⟨e, he, rfl⟩ := hagrees.exists_entry ht (hagrees.slots ▸ ho)
    have harmed := hagrees.armed i slot hget
    rw [Option.mem_toList.mp he] at harmed
    refine ⟨_, claim_of_armed (w := { w with clock }) slot ho fun j hj => ?_⟩
    obtain rfl := Option.some.inj hj
    exact ⟨hget, harmed⟩

/-- All that is done at a desk are deeds. -/
theorem kept (n : ℕ) (now : τ) : Kept (Reached n now) where
  arm call h := h.armCall call
  cancel k h := h.cancel k
  dropTimer name h := h.dropTimer name
  tidied h := h.step (.tidies _)
  moveTo time h _ := h.step (.moves _ time)
  fires h hpop := by
    obtain ⟨o, ho, w', hclaim⟩ := h.claims hpop
    exact ⟨w', hclaim, (h.step (.fires hpop ho hclaim)).step (.notes _ _)⟩

theorem of_moment (h : Moment (fresh n now) w) : Reached n now w :=
  (kept n now).of_moment ⟨[], .start⟩ h

end Reached

/-- **Slots and clock agree at every moment of every program.** Deeds led to the moment, and by any
deeds that lead there a slot is pending just if one call on the clock is its own: the one that was
last put into it, due at the time of that and the delay, if this is not negative. A slot that is not
pending has no call. All other calls are the plain timers that have not come to their end, and no
deed that may come next adds, removes or moves the call of a slot that it is not about. -/
theorem slots_and_clock_agree {n : ℕ} {now : τ} {w : Desk τ} (h : Moment (fresh n now) w) :
    (∃ deeds, Trace (fresh n now) deeds w) ∧ ∀ deeds, Trace (fresh n now) deeds w →
      w.rest.slots.length = n ∧
      (∀ i slot, w.rest.slots[i]? = some slot →
        (slot.pending = true ∧ ∃ e, latest? i deeds = some e ∧ slot.armed = some e.serial ∧
          w.clock.timers.filter (isOf n (some i)) =
            [⟨e.time + delayed e.call.delay, e.serial, e.call⟩]) ∨
        (slot.pending = false ∧ latest? i deeds = none ∧
          w.clock.timers.filter (isOf n (some i)) = [])) ∧
      (w.clock.timers.filter (isOf n none)).Perm ((plain deeds).map Entry.timer) ∧
      w.clock.pending = w.rest.slots.countP Slot.pending + (plain deeds).length ∧
      ∀ d w', Step w d w' → ∀ i, d.owner? ≠ some (some i) →
        w'.clock.timers.filter (isOf n (some i)) = w.clock.timers.filter (isOf n (some i)) ∧
          w'.rest.slots[i]? = w.rest.slots[i]? := by
  refine ⟨Reached.of_moment h, fun deeds htrace => ?_⟩
  have hagrees := htrace.agrees
  refine ⟨hagrees.slots, fun i slot hslot => ?_, hagrees.held none, hagrees.pending,
    fun d w' hstep i hd => hagrees.untouched hstep hd⟩
  have harmed := hagrees.armed i slot hslot
  have hown := hagrees.own_eq i
  cases hlatest : latest? i deeds with
  | none =>
    rw [hlatest] at harmed hown
    exact .inr ⟨congrArg Option.isSome harmed, rfl, hown⟩
  | some e =>
    rw [hlatest] at harmed hown
    exact .inl ⟨congrArg Option.isSome harmed, e, rfl, harmed, hown⟩

/-- A call that puts itself off once more, and is then stopped: the moment between the two. -/
theorem slots_and_clock_agree_inside_call :
    ∃ w : Desk ℤ, Moment (fresh 2 0) w ∧ w.rest.slots.map Slot.armed = [some 2, some 1] ∧
      (∃ deeds, Trace (fresh 2 0) deeds w) ∧ ∀ deeds, Trace (fresh 2 0) deeds w →
        w.clock.pending = 2 + (plain deeds).length ∧ ∃ e, latest? 0 deeds = some e ∧ e.serial = 2 := by
  have hmoment : ∃ w : Desk ℤ, Moment (fresh 2 0) w ∧
      w.rest.slots.map Slot.armed = [some 2, some 1] := by
    have hstart : Moment (fresh 2 (0 : ℤ)) _ := .start
    have hfirst := hstart.meets 1 (.arm (.mk (some 0) "first" 10
      [.arm (.mk (some 0) "again" 5 [] 0), .stop (.interrupt "")] 0)) .after
    have hother := hfirst.meets 1 (.arm (.mk (some (-1)) "other" 10 [.cancel 0] 0)) .after
    have hinside := hother.meets 2 (.advance 10)
      (.inside rfl (.first rfl) rfl (show _ = [] ++ _ :: _ from rfl) rfl .after)
    exact ⟨_, hinside, by decide +kernel⟩
  obtain ⟨w, hmoment, hslots⟩ := hmoment
  obtain ⟨hled, hagree⟩ := slots_and_clock_agree hmoment
  refine ⟨w, hmoment, hslots, hled, fun deeds htrace => ?_⟩
  obtain ⟨-, hslot, -, hcount, -⟩ := hagree deeds htrace
  obtain ⟨first, rest, hw, harmed, hrest⟩ := List.map_eq_cons_iff.mp hslots
  have hpending : w.rest.slots.countP Slot.pending = 2 := by
    rw [show Slot.pending = Option.isSome ∘ Slot.armed from rfl, ← List.countP_map, hslots]
    rfl
  rw [hpending] at hcount
  refine ⟨hcount, ?_⟩
  obtain ⟨-, e, he, hserial, -⟩ | ⟨hidle, -⟩ := hslot 0 first (by rw [hw]; rfl)
  · exact ⟨e, he, Option.some.inj (hserial.symm.trans harmed)⟩
  · rw [Slot.pending, harmed] at hidle
    contradiction

end TunnelView.Agenda
