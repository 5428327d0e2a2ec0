import TunnelView.Proofs.Reports.Grammar

/-!
# Reports with null fields

A field that is null says as much as one that is not there, with one exception. While disconnecting,
a null under `reason` masks what stands under `details`: the aim is to do nothing, whatever that asks
for.

Key definitions: `Value.filled`, `Report.Masked`.
Key theorems: `Value.find?_filled`, `Report.describes_filled_iff`,
`Report.nulls_count_as_absent_unless_masking`.
-/

namespace TunnelView

namespace Value

variable {fields : List (String × Value)} {key : String}

/-- The fields that say something: whatever stands under a key whose value is null is deleted. -/
def filled (fields : List (String × Value)) : List (String × Value) :=
  fields.filter fun field => !(get fields field.1).isNull

/-- Of a key that is kept nothing gets lost. -/
theorem find?_filter (fields : List (String × Value)) (keep : String → Bool) (key : String) :
    find? (fields.filter fun field => keep field.1) key =
      if keep key then find? fields key else none := by
  have hkeep : ∀ field : String × Value,
      decide (keep field.1 = true ∧ (field.1 == key) = true) = (keep key && field.1 == key) := by
    intro field
    by_cases h : field.1 = key
    · simp [h]
    · simp [h]
  unfold find?
  simp only [List.find?_filter, hkeep]
  cases keep key with
  | true => simp only [Bool.true_and, if_true]
  | false => simp

/-- A key stands among the fields that say something just if its value is set. -/
theorem find?_filled : find? (filled fields) key = (get fields key).set? := by
  have hfind := find?_filter fields (fun key => !(get fields key).isNull) key
  unfold filled
  rw [hfind]
  unfold set? get
  cases h : find? fields key with
  | none => simp [isNull]
  | some v =>
    rw [Option.getD_some]
    cases v.isNull with
    | true => rfl
    | false => rfl

@[simp] theorem get_filled : get (filled fields) key = get fields key := by
  have hset : ∀ v : Value, v.set?.getD .null = v := by
    intro v
    cases v <;> simp [set?, isNull]
  rw [get, find?_filled, hset]

end Value

namespace Report

open Value (filled)

variable {fields : List (String × Value)} {s : Status} {aim : Aim}

theorem asks_null_iff : Asks .null aim ↔ aim = .nothing := by
  constructor
  · intro h
    exact h.unique (.inl ⟨rfl, rfl⟩)
  · rintro rfl
    exact .inl ⟨rfl, rfl⟩

/-- With its nulls deleted, a report asks for what stands under `reason`, unless that is null, and
then for what stands under `details`. -/
theorem asksFor_filled_iff : AsksFor (filled fields) aim ↔
    if (Value.get fields "reason").isNull then Asks (Value.get fields "details") aim
    else Asks (Value.get fields "reason") aim := by
  rw [asksFor_iff, aimField, Value.find?_filled, Value.get_filled, Value.set?]
  split <;> simp

/-- While disconnecting, a null under `reason` masks an aim, or a fault, under `details`. -/
structure Masked (fields : List (String × Value)) : Prop where
  disconnecting : (Value.get fields "state").Names Phase.disconnecting.name
  null : Value.find? fields "reason" = some .null
  hidden : ¬Asks (Value.get fields "details") .nothing

/-- Nulls that mask nothing do not change what a report asks for. -/
theorem asksFor_filled_of_unmasked (h : ¬Masked fields)
    (hp : (Value.get fields "state").Names Phase.disconnecting.name) :
    AsksFor (filled fields) aim ↔ AsksFor fields aim := by
  rw [asksFor_filled_iff, asksFor_iff, aimField]
  cases hreason : Value.find? fields "reason" with
  | none => simp [Value.get, hreason, Value.isNull]
  | some v =>
    have hget : Value.get fields "reason" = v := by simp [Value.get, hreason]
    rw [hget, Option.getD_some]
    cases hnull : v.isNull with
    | false => simp
    | true =>
      obtain rfl := Value.isNull_iff.mp hnull
      have hdetails : Asks (Value.get fields "details") .nothing := by
        by_contra hhidden
        exact h ⟨hp, hreason, hhidden⟩
      rw [if_pos rfl, asks_null_iff]
      constructor
      · intro hasks
        exact hasks.unique hdetails
      · rintro rfl
        exact hdetails

/-- A report describes the same without its nulls, if they change nothing about what it asks for. -/
theorem describes_filled_iff (h : (Value.get fields "state").Names Phase.disconnecting.name →
      ∀ aim, AsksFor (filled fields) aim ↔ AsksFor fields aim) :
    Describes (filled fields) s ↔ Describes fields s := by
  have haim : (Value.get fields "state").Names s.phase.name → ∀ aim, s.aim? = some aim →
      (AsksFor (filled fields) aim ↔ AsksFor fields aim) := by
    intro hp aim hs
    have hphase : s.phase = .disconnecting := s.aim?_isSome_iff.mp (by rw [hs]; rfl)
    exact h (hphase ▸ hp) aim
  constructor
  · rintro ⟨hp, hasks, hendpoint, hlocation, hcause⟩
    rw [Value.get_filled] at hp hendpoint hlocation hcause
    exact ⟨hp, fun aim hs => (haim hp aim hs).mp (hasks aim hs), hendpoint, hlocation, hcause⟩
  · rintro ⟨hp, hasks, hendpoint, hlocation, hcause⟩
    refine ⟨?_, fun aim hs => (haim hp aim hs).mpr (hasks aim hs), ?_, ?_, ?_⟩ <;>
      rwa [Value.get_filled]

/-- A disconnecting report describes the statuses with an aim that it asks for and its details. -/
theorem describes_disconnecting_iff
    (hp : (Value.get fields "state").Names Phase.disconnecting.name) :
    Describes fields s ↔
      ∃ aim, AsksFor fields aim ∧ s = ⟨.disconnecting aim, readDetails fields⟩ := by
  rw [describes_iff hp]
  constructor
  · rintro ⟨aim?, haim, rfl⟩
    obtain ⟨hsome, hasks⟩ := aimFor_eq_ok_iff.mp haim
    obtain ⟨aim, rfl⟩ := Option.isSome_iff_exists.mp (hsome.mpr rfl)
    exact ⟨aim, hasks aim rfl, rfl⟩
  · rintro ⟨aim, hasks, rfl⟩
    refine ⟨some aim, aimFor_eq_ok_iff.mpr ⟨by simp, ?_⟩, rfl⟩
    rintro _ ⟨⟩
    exact hasks

theorem readDetails_filled : readDetails (filled fields) = readDetails fields := by
  simp [readDetails]

/-- A masked report is read as one that asks for nothing. -/
theorem Masked.readFields_eq (h : Masked fields) :
    readFields fields = .ok ⟨.disconnecting .nothing, readDetails fields⟩ := by
  rw [readFields_eq_ok_iff, describes_disconnecting_iff h.disconnecting]
  refine ⟨.nothing, ?_, rfl⟩
  exact .reason h.null (asks_null_iff.mpr rfl)

/-- With its nulls deleted, a masked report is read for what stands under `details`. -/
theorem Masked.readFields_filled (h : Masked fields) :
    readFields (filled fields) = .ok s ↔ ∃ aim, Asks (Value.get fields "details") aim ∧
      s = ⟨.disconnecting aim, readDetails fields⟩ := by
  have hp : (Value.get (filled fields) "state").Names Phase.disconnecting.name := by
    rw [Value.get_filled]
    exact h.disconnecting
  have hnull : (Value.get fields "reason").isNull = true := by
    simp [Value.get, h.null, Value.isNull]
  rw [readFields_eq_ok_iff, describes_disconnecting_iff hp, readDetails_filled]
  simp only [asksFor_filled_iff, hnull, if_true]

/-- **A null counts as no field, unless it masks.** Whatever the fields of a report, they are read
as the same status with their nulls deleted, or refused with and without, just if it is not the case
that the report is disconnecting with a null under `reason` and an aim other than to do nothing, or
a fault, under `details`. In that case it is read as asking to do nothing, and with its nulls
deleted for what stands under `details`. -/
theorem nulls_count_as_absent_unless_masking (fields : List (String × Value)) :
    ((∀ s, readFields (filled fields) = .ok s ↔ readFields fields = .ok s) ↔ ¬Masked fields) ∧
    (Masked fields →
      readFields fields = .ok ⟨.disconnecting .nothing, readDetails fields⟩ ∧
      ∀ s, readFields (filled fields) = .ok s ↔ ∃ aim, Asks (Value.get fields "details") aim ∧
        s = ⟨.disconnecting aim, readDetails fields⟩) := by
  refine ⟨⟨?_, ?_⟩, ?_⟩
  · intro hsame hmasked
    obtain ⟨aim, hdetails, hs⟩ :=
      hmasked.readFields_filled.mp ((hsame _).mpr hmasked.readFields_eq)
    cases hs
    exact hmasked.hidden hdetails
  · intro hunmasked s
    rw [readFields_eq_ok_iff, readFields_eq_ok_iff]
    apply describes_filled_iff
    intro hp aim
    exact asksFor_filled_of_unmasked hunmasked hp
  · intro hmasked
    exact ⟨hmasked.readFields_eq, fun s => hmasked.readFields_filled⟩

/-- The fields of a report of an older service, with a `reason` that is null. -/
def reconnectingInDetails : List (String × Value) :=
  [("state", .text "disconnecting"), ("reason", .null), ("details", .text "reconnect")]

theorem names_disconnecting : (Value.text "disconnecting").Names Phase.disconnecting.name :=
  ⟨"disconnecting", rfl, Text.lower_of_small (Phase.small_name .disconnecting)⟩

theorem asks_reconnect : Asks (.text "reconnect") .reconnect :=
  .inr ⟨"reconnect", rfl, Text.lower_of_small (Aim.small_name .reconnect)⟩

theorem masked_reconnectingInDetails : Masked reconnectingInDetails where
  disconnecting := names_disconnecting
  null := rfl
  hidden := by
    intro hnothing
    have heq : Aim.nothing = Aim.reconnect := hnothing.unique asks_reconnect
    cases heq

/-- The report of the older service, which is read as asking to do nothing, and without its null as
asking to reconnect; and the same report of a connected service, which is read alike. -/
theorem nulls_count_as_absent_unless_masking_details :
    (Masked reconnectingInDetails ∧
      readFields reconnectingInDetails = .ok ⟨.disconnecting .nothing, {}⟩ ∧
      readFields (filled reconnectingInDetails) = .ok ⟨.disconnecting .reconnect, {}⟩) ∧
    ∀ s, readFields (filled (("state", .text "connected") :: reconnectingInDetails)) = .ok s ↔
      readFields (("state", .text "connected") :: reconnectingInDetails) = .ok s := by
  constructor
  · obtain ⟨hread, hfilled⟩ :=
      (nulls_count_as_absent_unless_masking reconnectingInDetails).2 masked_reconnectingInDetails
    exact ⟨masked_reconnectingInDetails, hread, (hfilled _).mpr ⟨.reconnect, asks_reconnect, rfl⟩⟩
  · apply (nulls_count_as_absent_unless_masking _).1.mpr
    intro hmasked
    obtain ⟨s, hs, hname⟩ := hmasked.disconnecting
    cases hs
    have hlower : Text.lower "connected" = "connected" :=
      Text.lower_of_small (Phase.small_name .connected)
    exact absurd (hlower.symm.trans hname) (by decide)

/-- A null does not count as no field where `details` asks to reconnect. -/
theorem null_masks_details :
    ¬∀ fields s, readFields (filled fields) = .ok s ↔ readFields fields = .ok s := by
  intro hsame
  have hread := masked_reconnectingInDetails.readFields_eq
  obtain ⟨aim, hdetails, hs⟩ :=
    masked_reconnectingInDetails.readFields_filled.mp ((hsame _ _).mpr hread)
  cases hs
  exact masked_reconnectingInDetails.hidden hdetails

end Report
end TunnelView
