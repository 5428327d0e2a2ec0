import Mathlib.Data.List.Perm.Basic
import Mathlib.Logic.ExistsUnique
import TunnelView.Replay

/-!
# Which scripts are taken

A script is taken if it is a list of well-formed events: objects with a time that is not below zero,
with just one of the three actions, and with an expectation that is known. Taking it only puts its
events into another order. So every event of a script that was taken leads to operations of a few
kinds: the clock goes to the event's time, and then comes a report, an assumption or a reset.

Key definitions: `Script.WellFormed`, `Script.IsScript`, `Op.OfScript`.
Key theorems: `Script.read_eq_ok`, `Script.exists_read_iff`, `Script.Event.ofScript`.
-/

namespace TunnelView

theorem Value.find?_isSome (fields : List (String × Value)) (key : String) :
    (Value.find? fields key).isSome = fields.any (·.1 == key) := by
  rw [Value.find?, Option.isSome_map, Bool.eq_iff_iff, List.find?_isSome, List.any_eq_true]

theorem Assumption.ofValue?_isSome (v : Value) : (Assumption.ofValue? v).isSome ↔
    v = .text "connecting" ∨ v = .text "disconnecting" := by
  cases v with
  | text s =>
    simp only [Assumption.ofValue?, List.find?_isSome, Value.text.injEq, List.mem_cons,
      List.not_mem_nil, or_false, exists_eq_or_imp, exists_eq_left, Assumption.name, beq_iff_eq]
    rw [eq_comm, @eq_comm _ _ s]
  | _ => simp [Assumption.ofValue?]

namespace Script

/-- The time of an event is a number that is not below zero. -/
def IsTimed (fields : List (String × Value)) : Prop :=
  ∃ n, Value.find? fields "at_ms" = some (.number n) ∧ ¬n < 0

/-- An event has just one of the actions. -/
def IsSingle (fields : List (String × Value)) : Prop :=
  ∃! key, key ∈ actionKeys ∧ (Value.find? fields key).isSome

/-- The fields of a well-formed event. -/
structure WellFormed (fields : List (String × Value)) : Prop where
  time : IsTimed fields
  action : IsSingle fields
  expectation : ∀ kind, Value.find? fields "expect" = some kind →
    kind = .text "connecting" ∨ kind = .text "disconnecting"

/-- A list of well-formed events. -/
def IsScript (items : List Value) : Prop :=
  ∀ item ∈ items, ∃ fields, item = .object fields ∧ WellFormed fields

variable {fields : List (String × Value)} {item : Value} {items : List Value} {e : Event}
  {events : List Event}

theorem readTime_eq_some {v : Value} {n : Number} :
    readTime v = some n ↔ v = .number n ∧ ¬n < 0 := by
  cases v with
  | number m =>
    show (if m < 0 then none else some m) = some n ↔ _
    by_cases h : m < 0
    · simp only [if_pos h, Value.number.injEq, reduceCtorEq, false_iff, not_and, not_not]
      rintro rfl
      exact h
    · simp only [if_neg h, Option.some.injEq, Value.number.injEq]
      constructor
      · rintro rfl
        exact ⟨rfl, h⟩
      · exact And.left
  | _ => simp [readTime]

/-- Of keys without repetition just one is left if there is just one that fits. -/
theorem length_filter_eq_one {keys : List String} (h : keys.Nodup) (p : String → Bool) :
    (keys.filter p).length = 1 ↔ ∃! key, key ∈ keys ∧ p key := by
  rw [List.length_eq_one_iff]
  constructor
  · rintro ⟨key, hkey⟩
    refine ⟨key, List.mem_filter.mp (hkey ▸ List.mem_singleton_self key), fun other hother => ?_⟩
    exact List.mem_singleton.mp (hkey ▸ List.mem_filter.mpr hother)
  · rintro ⟨key, hkey, honly⟩
    have hall := List.eq_replicate_of_mem fun other hother => honly other (List.mem_filter.mp hother)
    have hnodup : (keys.filter p).Nodup := h.filter p
    have hpos := List.length_pos_of_mem (List.mem_filter.mpr hkey)
    rw [hall, List.nodup_replicate] at hnodup
    exact ⟨key, hall.trans (by rw [Nat.le_antisymm hnodup hpos]; rfl)⟩

theorem actionsOf_length : (actionsOf fields).length = 1 ↔
    ∃! key, key ∈ actionKeys ∧ (Value.find? fields key).isSome := by
  have hkeys : actionKeys.Nodup := by decide
  simp only [Value.find?_isSome]
  exact length_filter_eq_one hkeys _

theorem get_eq_number {key : String} {n : Number} :
    Value.get fields key = .number n ↔ Value.find? fields key = some (.number n) := by
  rw [Value.get]
  cases Value.find? fields key <;> simp

theorem readEvent_object : readEvent (.object fields) = .ok e ↔ fields = e.fields ∧
    readTime (Value.get fields "at_ms") = some e.time ∧ (actionsOf fields).length = 1 ∧
    ∀ kind, Value.find? fields "expect" = some kind → (Assumption.ofValue? kind).isSome := by
  obtain ⟨time, fields'⟩ := e
  simp only [readEvent]
  cases readTime (Value.get fields "at_ms") with
  | none => simp
  | some n =>
    by_cases hactions : (actionsOf fields).length = 1
    · cases Value.find? fields "expect" with
      | none => simp [hactions, and_comm]
      | some kind => cases hkind : Assumption.ofValue? kind <;> simp [hactions, hkind, and_comm]
    · simp [hactions]

/-- An event is taken as it came, if it is well-formed. -/
theorem readEvent_eq_ok : readEvent item = .ok e ↔ item = e.value ∧
    Value.find? e.fields "at_ms" = some (.number e.time) ∧ WellFormed e.fields := by
  cases item with
  | object fields =>
    rw [readEvent_object, readTime_eq_some, get_eq_number, actionsOf_length]
    simp only [Assumption.ofValue?_isSome, Event.value, Value.object.injEq]
    constructor
    · rintro ⟨rfl, ⟨htime, hzero⟩, haction, hexpect⟩
      exact ⟨rfl, htime, ⟨_, htime, hzero⟩, haction, hexpect⟩
    · rintro ⟨rfl, htime, ⟨n, hn, hzero⟩, haction, hexpect⟩
      obtain rfl := Value.number.inj (Option.some.inj (htime.symm.trans hn))
      exact ⟨rfl, ⟨htime, hzero⟩, haction, hexpect⟩
  | _ => simp [readEvent, Event.value]

/-- Events are taken together. -/
theorem readEvents_eq_ok {index : ℕ} : readEvents index items = .ok events ↔
    events.map Event.value = items ∧ ∀ e ∈ events, readEvent e.value = .ok e := by
  induction items generalizing index events with
  | nil => cases events <;> simp [readEvents]
  | cons item items ih =>
    have hrest := fun taken => @ih taken (index + 1)
    simp only [readEvents]
    cases events with
    | nil =>
      cases readEvent item with
      | error problem => simp
      | ok e => cases readEvents (index + 1) items <;> simp [Except.map]
    | cons e events =>
      simp only [List.map_cons, List.cons.injEq, List.forall_mem_cons]
      constructor
      · intro h
        cases hitem : readEvent item with
        | error problem =>
          rw [hitem] at h
          contradiction
        | ok e' =>
          rw [hitem] at h
          cases htaken : readEvents (index + 1) items with
          | error fault =>
            simp only [htaken] at h
            contradiction
          | ok taken =>
            simp only [htaken] at h
            obtain ⟨rfl, rfl⟩ := List.cons.inj (Except.ok.inj h)
            obtain ⟨hitems, hevents⟩ := (hrest taken).mp htaken
            obtain ⟨rfl, -⟩ := readEvent_eq_ok.mp hitem
            exact ⟨⟨rfl, hitems⟩, hitem, hevents⟩
      · rintro ⟨⟨rfl, hitems⟩, hitem, hevents⟩
        rw [hitem, (hrest events).mpr ⟨hitems, hevents⟩]
        rfl

theorem IsScript.exists_events (h : IsScript items) : ∃ events : List Event,
    events.map Event.value = items ∧ ∀ e ∈ events, readEvent e.value = .ok e := by
  induction items with
  | nil => exact ⟨[], rfl, nofun⟩
  | cons item items ih =>
    obtain ⟨hitem, hitems⟩ := List.forall_mem_cons.mp h
    obtain ⟨fields, rfl, hwell⟩ := hitem
    obtain ⟨time, htime, -⟩ := hwell.time
    obtain ⟨events, rfl, hevents⟩ := ih hitems
    exact ⟨⟨time, fields⟩ :: events, rfl,
      List.forall_mem_cons.mpr ⟨readEvent_eq_ok.mpr ⟨rfl, htime, hwell⟩, hevents⟩⟩

theorem arrange_perm (events : List Event) : (arrange events).Perm events := by
  unfold arrange
  split
  · exact List.mergeSort_perm _ _
  · exact Order.sort_perm _ _

theorem read_list_eq_ok : read (.list items) = .ok events ↔
    ∃ taken, readEvents 0 items = .ok taken ∧ arrange taken = events := by
  rw [read]
  cases readEvents 0 items <;> simp [Except.map]

/-- The events of a script that was taken are its items, in some order. -/
theorem read_eq_ok {v : Value} (h : read v = .ok events) : ∃ items, v = .list items ∧
    (events.map Event.value).Perm items ∧ ∀ e ∈ events, readEvent e.value = .ok e := by
  cases v with
  | list items =>
    obtain ⟨taken, hread, rfl⟩ := read_list_eq_ok.mp h
    have hitems := readEvents_eq_ok.mp hread
    refine ⟨items, rfl, hitems.1 ▸ (arrange_perm taken).map _, fun e he => hitems.2 e ?_⟩
    exact (arrange_perm taken).mem_iff.mp he
  | _ => cases h

/-- **A script is taken just if it is a list of well-formed events.** -/
theorem exists_read_iff {v : Value} :
    (∃ events, read v = .ok events) ↔ ∃ items, v = .list items ∧ IsScript items := by
  constructor
  · rintro ⟨events, h⟩
    obtain ⟨items, rfl, hperm, hevents⟩ := read_eq_ok h
    refine ⟨items, rfl, fun item hitem => ?_⟩
    obtain ⟨e, he, rfl⟩ := List.mem_map.mp (hperm.mem_iff.mpr hitem)
    exact ⟨e.fields, rfl, (readEvent_eq_ok.mp (hevents e he)).2.2⟩
  · rintro ⟨items, rfl, hitems⟩
    obtain ⟨events, hevents⟩ := hitems.exists_events
    exact ⟨arrange events, read_list_eq_ok.mpr ⟨events, readEvents_eq_ok.mpr hevents, rfl⟩⟩

end Script

/-! ### Operations -/

/-- The operations of events that were taken, which come at such times and bring such reports. -/
inductive Op.OfScript (timely : Number → Prop) (reported : Value → Prop) : Op Number → Prop
  | advanceTo {time : Number} (h : timely time) : OfScript timely reported (.advanceTo time)
  | notify {v : Value} (h : reported v) : OfScript timely reported (.notify (.raw v))
  | expect {kind : Value} (h : (Assumption.ofValue? kind).isSome) :
      OfScript timely reported (.expect kind)
  | reset : OfScript timely reported .reset

namespace Script

variable {e : Event}

/-- The action of a well-formed event is the one whose key it has. -/
theorem WellFormed.action_eq {fields : List (String × Value)} (h : WellFormed fields) :
    ∃ action, (Action.ofFields fields : Except (Failure Number) Action) = .ok action ∧
      (∀ v, action = .report v ↔ Value.find? fields "status" = some v) ∧
      ∀ kind, action = .assume kind → Value.find? fields "expect" = some kind := by
  obtain ⟨key, ⟨hkey, hsome⟩, -⟩ := h.action
  unfold Action.ofFields
  cases hstatus : Value.find? fields "status" with
  | some v => exact ⟨.report v, rfl, fun v' => by simp, nofun⟩
  | none =>
    cases hexpect : Value.find? fields "expect" with
    | some kind => exact ⟨.assume kind, rfl, fun v => by simp, fun kind' h => by simpa using h⟩
    | none =>
      cases hreset : Value.find? fields "reset" with
      | some flag =>
        refine ⟨if flag.truth then .reset else .pass, rfl, ?_, ?_⟩ <;> split <;> simp
      | none =>
        simp only [actionKeys, List.mem_cons, List.not_mem_nil, or_false] at hkey
        rcases hkey with rfl | rfl | rfl
        · simp [hstatus] at hsome
        · simp [hexpect] at hsome
        · simp [hreset] at hsome

/-- An event that was taken moves the clock to its time, and does what it is there for. -/
theorem eventOps_eq (he : readEvent e.value = .ok e) : ∃ action,
    (Action.ofFields e.fields : Except (Failure Number) Action) = .ok action ∧
      Replay.eventOps e.value = .advanceTo e.time :: action.ops := by
  obtain ⟨-, htime, hwell⟩ := readEvent_eq_ok.mp he
  obtain ⟨action, haction, -⟩ := hwell.action_eq
  refine ⟨action, haction, ?_⟩
  rw [Event.value, Replay.eventOps, htime, haction]
  rfl

theorem Event.ofScript (he : readEvent e.value = .ok e) :
    ∀ op ∈ Replay.eventOps e.value,
      op.OfScript (· = e.time) fun v => Value.find? e.fields "status" = some v := by
  obtain ⟨-, -, hwell⟩ := readEvent_eq_ok.mp he
  obtain ⟨action, haction, hops⟩ := eventOps_eq he
  obtain ⟨action', haction', hreport, hassume⟩ := hwell.action_eq
  obtain rfl := Except.ok.inj (haction.symm.trans haction')
  rw [hops]
  refine List.forall_mem_cons.mpr ⟨.advanceTo rfl, ?_⟩
  cases action with
  | report v => exact List.forall_mem_singleton.mpr (.notify ((hreport v).mp rfl))
  | assume kind =>
    refine List.forall_mem_singleton.mpr (.expect ?_)
    exact (Assumption.ofValue?_isSome kind).mpr (hwell.expectation kind (hassume kind rfl))
  | reset => exact List.forall_mem_singleton.mpr .reset
  | pass => exact nofun

/-- Every report of an event that was taken is handed to the view. -/
theorem Event.notify_mem (he : readEvent e.value = .ok e) {v : Value}
    (hv : Value.find? e.fields "status" = some v) :
    .notify (.raw v) ∈ Replay.eventOps e.value := by
  obtain ⟨-, -, hwell⟩ := readEvent_eq_ok.mp he
  obtain ⟨action, haction, hops⟩ := eventOps_eq he
  obtain ⟨action', haction', hreport, -⟩ := hwell.action_eq
  obtain rfl := Except.ok.inj (haction.symm.trans haction')
  rw [hops, (hreport v).mpr hv]
  exact List.mem_cons_of_mem _ (List.mem_singleton_self _)

end Script
end TunnelView
