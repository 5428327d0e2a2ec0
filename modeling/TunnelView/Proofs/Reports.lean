import TunnelView.Proofs.Spelling
import TunnelView.Report

/-!
# Reading a report takes back writing it

A report that is written of a status reads as that very status, so the written report is a normal form
of all reports that read alike. It has at most five keys, each once, with something under each of
them. Two written reports agree just if the statuses do, though objects are compared key by key and
an unset detail has no key.

Key definitions: `Report.keys`.
Key theorems: `Report.readValue_ofStatus`, `Report.fields_sound`, `Report.agrees_ofStatus`,
`Report.reading_undoes_writing`.
-/

namespace TunnelView

/-! ### Names -/

/-- Names of phases are words of small letters. -/
theorem Phase.small_name (p : Phase) : ∀ c ∈ p.name.toList, Text.IsSmall c := by
  cases p <;> simp [name, Text.IsSmall]

/-- Names of aims are words of small letters. -/
theorem Aim.small_name (a : Aim) : ∀ c ∈ a.name.toList, Text.IsSmall c := by
  cases a <;> simp [name, Text.IsSmall]

/-- The name of a phase is in lower case and read as that phase. -/
theorem Phase.ofName?_lower_name (p : Phase) : ofName? (Text.lower p.name) = some p := by
  rw [Text.lower_of_small p.small_name]
  cases p <;> rfl

/-- The name of an aim is in lower case and read as that aim. -/
theorem Aim.ofName?_lower_name (a : Aim) : ofName? (Text.lower a.name) = some a := by
  rw [Text.lower_of_small a.small_name]
  cases a <;> rfl

theorem Phase.name_inj {p q : Phase} : p.name = q.name ↔ p = q := by
  refine ⟨fun h => ?_, congrArg name⟩
  rw [← Option.some_inj, ← ofName?_lower_name p, ← ofName?_lower_name q, h]

theorem Aim.name_inj {a b : Aim} : a.name = b.name ↔ a = b := by
  refine ⟨fun h => ?_, congrArg name⟩
  rw [← Option.some_inj, ← ofName?_lower_name a, ← ofName?_lower_name b, h]

/-! ### Statuses -/

namespace Status

theorem phase_ofParts (phase : Phase) (aim : Option Aim) (details : Details) :
    (ofParts phase aim details).phase = phase := by cases phase <;> rfl

/-- There is an aim just while disconnecting. -/
theorem aim?_isSome_iff (s : Status) : s.aim?.isSome ↔ s.phase = .disconnecting := by
  rcases s with ⟨_ | _ | _ | aim | _, details⟩ <;> simp [aim?, phase, Condition.aim?, Condition.phase]

/-- Every status is made of its parts. -/
theorem ofParts_parts (s : Status) : ofParts s.phase s.aim? s.details = s := by
  rcases s with ⟨_ | _ | _ | aim | _, details⟩ <;> rfl

theorem condition_eq_iff {s s' : Status} :
    s.condition = s'.condition ↔ s.phase = s'.phase ∧ s.aim? = s'.aim? := by
  rcases s with ⟨_ | _ | _ | aim | _, details⟩ <;> rcases s' with ⟨_ | _ | _ | aim' | _, details'⟩ <;>
    simp [phase, aim?, Condition.phase, Condition.aim?]

end Status

/-! ### Values -/

namespace Value

variable {v w : Value} {fields more : List (String × Value)} {key : String}

theorem isNull_iff : v.isNull = true ↔ v = .null := by cases v <;> simp [isNull]

theorem display?_text (s : String) : (text s).display? = some s := rfl

theorem find?_append : find? (fields ++ more) key = (find? fields key).or (find? more key) := by
  unfold find?
  rw [List.find?_append, Option.map_or]

theorem find?_singleton (key : String) (v : Value) (other : String) :
    find? [(key, v)] other = if key = other then some v else none := by
  by_cases h : key = other <;> simp [find?, h]

/-- A value, if it is set. -/
def set? (v : Value) : Option Value := if v.isNull then none else some v

theorem find?_fieldIfSet (key : String) (v : Value) (other : String) :
    find? (Report.fieldIfSet key v) other = if key = other then v.set? else none := by
  unfold Report.fieldIfSet set?
  cases v.isNull with
  | true => simp [find?]
  | false => exact find?_singleton key v other

/-- What is null agrees with null only. -/
theorem isNull_eq_of_agrees (h : v.agrees w = true) : v.isNull = w.isNull := by
  cases v <;> cases w <;> first | rfl | simp [agrees, agreesNumber, asNumber?] at h

theorem agrees_of_isNull (hv : v.isNull = true) (hw : w.isNull = true) : v.agrees w = true := by
  rw [isNull_iff.mp hv, isNull_iff.mp hw, agrees]

theorem agreesWithin_append (first second fields : List (String × Value)) :
    agreesWithin (first ++ second) fields =
      (agreesWithin first fields && agreesWithin second fields) := by
  induction first with
  | nil => rw [List.nil_append, agreesWithin, Bool.true_and]
  | cons field first ih => rw [List.cons_append, agreesWithin, agreesWithin, ih, Bool.and_assoc]

theorem agreesWithin_singleton (key : String) (v : Value) (fields : List (String × Value)) :
    agreesWithin [(key, v)] fields = (find? fields key).any v.agrees := by
  rw [agreesWithin, agreesWithin, Bool.and_true]
  cases find? fields key <;> rfl

end Value

namespace Report

/-! ### What is written -/

/-- The keys of a report. -/
def keys : List String := ["state", "reason", "endpoint", "location", "error_cause"]

/-- The field of the aim, where there is one. -/
def aimFields (s : Status) : List (String × Value) :=
  match s.aim? with
  | some aim => [("reason", .text aim.name)]
  | none => []

variable (s : Status)

theorem fields_eq : fields s = [("state", .text s.phase.name)] ++ aimFields s
    ++ fieldIfSet "endpoint" s.details.endpoint ++ fieldIfSet "location" s.details.location
    ++ fieldIfSet "error_cause" s.details.cause := rfl

/-- What the written report has under each key: what was set. -/
theorem find?_fields (key : String) : Value.find? (fields s) key =
    if key = "state" then some (.text s.phase.name)
    else if key = "reason" then s.aim?.map fun aim => .text aim.name
    else if key = "endpoint" then s.details.endpoint.set?
    else if key = "location" then s.details.location.set?
    else if key = "error_cause" then s.details.cause.set?
    else none := by
  have haim : Value.find? (aimFields s) key =
      if "reason" = key then s.aim?.map fun aim => .text aim.name else none := by
    unfold aimFields
    cases s.aim? with
    | none => simp [Value.find?]
    | some aim => exact Value.find?_singleton _ _ key
  simp only [fields_eq, Value.find?_append, Value.find?_singleton, haim, Value.find?_fieldIfSet]
  grind

/-- **A written report is sound**: each of its keys is one of the five, stands there once, and has
something under it. -/
theorem fields_sound : (∀ field ∈ fields s, field.1 ∈ keys ∧ field.2.isNull = false) ∧
    ((fields s).map Prod.fst).Nodup := by
  have haim : aimFields s = [] ∨ ∃ aim : Aim, aimFields s = [("reason", .text aim.name)] := by
    unfold aimFields
    cases s.aim? with
    | none => exact .inl rfl
    | some aim => exact .inr ⟨aim, rfl⟩
  have hset : ∀ key v, fieldIfSet key v = [] ∨ v.isNull = false ∧ fieldIfSet key v = [(key, v)] := by
    intro key v
    unfold fieldIfSet
    cases v.isNull with
    | true => exact .inl rfl
    | false => exact .inr ⟨rfl, rfl⟩
  rw [fields_eq]
  rcases haim with haim | ⟨aim, haim⟩ <;>
  rcases hset "endpoint" s.details.endpoint with hend | ⟨hend', hend⟩ <;>
  rcases hset "location" s.details.location with hloc | ⟨hloc', hloc⟩ <;>
  rcases hset "error_cause" s.details.cause with hcause | ⟨hcause', hcause⟩ <;>
  simp_all [keys, Value.isNull]

/-! ### Reading what is written -/

theorem readDetails_fields : readDetails (fields s) = s.details := by
  have hget : ∀ v : Value, v.set?.getD .null = v := by
    intro v
    cases v <;> rfl
  simp [readDetails, Value.get, find?_fields, hget]

theorem aimField_fields {aim : Aim} (h : s.aim? = some aim) :
    aimField (fields s) = .text aim.name := by
  simp [aimField, find?_fields, h]

/-- **A written report reads as the status that it was written of.** -/
theorem readValue_ofStatus : readValue (ofStatus s) = .ok s := by
  have hstate : Value.get (fields s) "state" = .text s.phase.name := by
    simp [Value.get, find?_fields]
  have hphase := Phase.ofName?_lower_name s.phase
  have hdetails := readDetails_fields s
  have hparts := s.ofParts_parts
  show readFields (fields s) = .ok s
  unfold readFields
  simp only [hstate, Value.isNull, Value.display?_text, Option.bind_some, Bool.false_eq_true,
    if_false, hphase]
  cases haim : s.aim? with
  | some aim =>
    have hdisconnecting : s.phase = .disconnecting := s.aim?_isSome_iff.mp (by rw [haim]; rfl)
    have hread : readAim (fields s) = .ok aim := by
      simp only [readAim, aimField_fields s haim, Value.isNull, Value.display?_text, Option.bind_some,
        Bool.false_eq_true, if_false, Aim.ofName?_lower_name]
    rw [haim, hdisconnecting] at hparts
    rw [hdisconnecting]
    dsimp only
    rw [hread, hdetails]
    exact congrArg Except.ok hparts
  | none =>
    have hother : s.phase ≠ .disconnecting := fun h => by
      have hsome := s.aim?_isSome_iff.mpr h
      rw [haim] at hsome
      contradiction
    rw [haim] at hparts
    rw [hdetails]
    cases hp : s.phase <;> rw [hp] at hparts hother
    case disconnecting => exact absurd rfl hother
    all_goals exact congrArg Except.ok hparts

/-! ### Comparing what is written -/

variable {s s' : Status} {key : String} {v v' : Value} {rest : List (String × Value)}

theorem length_fieldIfSet (key : String) (v : Value) :
    (fieldIfSet key v).length = if v.isNull then 0 else 1 := by
  unfold fieldIfSet
  cases v.isNull <;> rfl

/-- A detail that is set is found on the other side just if it is set there too, and agrees. -/
theorem agreesWithin_fieldIfSet (v v' : Value) (hfind : Value.find? rest key = v'.set?) :
    Value.agreesWithin (fieldIfSet key v) rest = true ↔
      (v.isNull = false → v'.isNull = false ∧ v.agrees v' = true) := by
  unfold fieldIfSet
  cases hv : v.isNull with
  | true => simp [Value.agreesWithin]
  | false =>
    rw [if_neg Bool.false_ne_true, Value.agreesWithin_singleton, hfind, Value.set?]
    cases v'.isNull <;> simp

/-- Two details agree just if both are unset, or both are set and agree. -/
theorem agrees_iff_set (key : String) :
    v.agrees v' = true ↔ (fieldIfSet key v).length = (fieldIfSet key v').length ∧
    (v.isNull = false → v'.isNull = false ∧ v.agrees v' = true) := by
  rw [length_fieldIfSet, length_fieldIfSet]
  constructor
  · intro h
    have hnull := Value.isNull_eq_of_agrees h
    rw [← hnull]
    exact ⟨rfl, fun hv => ⟨hv, h⟩⟩
  · rintro ⟨hlength, hset⟩
    cases hv : v.isNull with
    | true =>
      refine Value.agrees_of_isNull hv ?_
      cases hv' : v'.isNull with
      | true => rfl
      | false =>
        rw [hv, hv'] at hlength
        contradiction
    | false => exact (hset hv).2

/-- A detail that is set only if the other is takes no more room. -/
theorem length_fieldIfSet_le (key : String) (h : v.isNull = false → v'.isNull = false) :
    (fieldIfSet key v).length ≤ (fieldIfSet key v').length := by
  rw [length_fieldIfSet, length_fieldIfSet]
  cases hv : v.isNull with
  | true => exact Nat.zero_le _
  | false =>
    exact Nat.le_of_eq (by rw [h hv])

theorem length_fields (s : Status) : (fields s).length = 1 + (aimFields s).length
    + (fieldIfSet "endpoint" s.details.endpoint).length
    + (fieldIfSet "location" s.details.location).length
    + (fieldIfSet "error_cause" s.details.cause).length := by
  simp only [fields_eq, List.length_append, List.length_singleton]

/-- Statuses of one phase have aims alike. -/
theorem aim?_isSome_eq (hphase : s.phase = s'.phase) : s.aim?.isSome = s'.aim?.isSome := by
  rw [Bool.eq_iff_iff, s.aim?_isSome_iff, s'.aim?_isSome_iff, hphase]

theorem length_aimFields (hphase : s.phase = s'.phase) :
    (aimFields s).length = (aimFields s').length := by
  have hsome := aim?_isSome_eq hphase
  unfold aimFields
  cases h : s.aim? <;> cases h' : s'.aim? <;> rw [h, h'] at hsome <;> first | rfl | contradiction

theorem agreesWithin_aimFields (hphase : s.phase = s'.phase) :
    Value.agreesWithin (aimFields s) (fields s') = true ↔ s.aim? = s'.aim? := by
  have hsome := aim?_isSome_eq hphase
  have hreason : Value.find? (fields s') "reason" = s'.aim?.map fun aim => .text aim.name := by
    simp [find?_fields]
  unfold aimFields
  cases h : s.aim? <;> cases h' : s'.aim? <;> rw [h, h'] at hsome
  case none.none => simp [Value.agreesWithin]
  case some.some aim aim' =>
    dsimp only
    rw [Value.agreesWithin_singleton, hreason, h']
    simp [Value.agrees, Aim.name_inj]
  all_goals contradiction

/-- The parts of a written report agree one by one. -/
theorem agreesWithin_fields (s s' : Status) : Value.agreesWithin (fields s) (fields s') = true ↔
    s.phase = s'.phase ∧ Value.agreesWithin (aimFields s) (fields s') = true ∧
      (s.details.endpoint.isNull = false →
        s'.details.endpoint.isNull = false ∧ s.details.endpoint.agrees s'.details.endpoint = true) ∧
      (s.details.location.isNull = false →
        s'.details.location.isNull = false ∧ s.details.location.agrees s'.details.location = true) ∧
      (s.details.cause.isNull = false →
        s'.details.cause.isNull = false ∧ s.details.cause.agrees s'.details.cause = true) := by
  have hstate : Value.agreesWithin [("state", .text s.phase.name)] (fields s') = true ↔
      s.phase = s'.phase := by
    rw [Value.agreesWithin_singleton, find?_fields, if_pos rfl, ← Phase.name_inj]
    simp [Value.agrees]
  rw [fields_eq s]
  simp only [Value.agreesWithin_append, Bool.and_eq_true, and_assoc, hstate]
  rw [agreesWithin_fieldIfSet s.details.endpoint s'.details.endpoint (by simp [find?_fields]),
    agreesWithin_fieldIfSet s.details.location s'.details.location (by simp [find?_fields]),
    agreesWithin_fieldIfSet s.details.cause s'.details.cause (by simp [find?_fields])]

/-- **Two written reports agree just if the statuses do.** -/
theorem agrees_ofStatus (s s' : Status) : (ofStatus s).agrees (ofStatus s') = s.agrees s' := by
  rw [Bool.eq_iff_iff, ofStatus, ofStatus, Value.agrees, Bool.and_eq_true, beq_iff_eq,
    agreesWithin_fields]
  unfold Status.agrees
  simp only [Bool.and_eq_true, beq_iff_eq, Status.condition_eq_iff, and_assoc]
  have hlength := length_fields s
  have hlength' := length_fields s'
  constructor
  · rintro ⟨hsame, hphase, haims, hendpoint, hlocation, hcause⟩
    have haim := length_aimFields hphase
    have hle := length_fieldIfSet_le "endpoint" fun h => (hendpoint h).1
    have hle' := length_fieldIfSet_le "location" fun h => (hlocation h).1
    have hle'' := length_fieldIfSet_le "error_cause" fun h => (hcause h).1
    exact ⟨hphase, (agreesWithin_aimFields hphase).mp haims,
      (agrees_iff_set "endpoint").mpr ⟨by omega, hendpoint⟩,
      (agrees_iff_set "location").mpr ⟨by omega, hlocation⟩,
      (agrees_iff_set "error_cause").mpr ⟨by omega, hcause⟩⟩
  · rintro ⟨hphase, haim, hendpoint, hlocation, hcause⟩
    obtain ⟨he, hendpoint⟩ := (agrees_iff_set "endpoint").mp hendpoint
    obtain ⟨hl, hlocation⟩ := (agrees_iff_set "location").mp hlocation
    obtain ⟨hc, hcause⟩ := (agrees_iff_set "error_cause").mp hcause
    have haims := length_aimFields hphase
    exact ⟨by omega, hphase, (agreesWithin_aimFields hphase).mpr haim, hendpoint, hlocation, hcause⟩

/-- **Reading undoes writing.** However a status is made, it has an aim just while disconnecting, and
its report reads as that status again. The report has only keys out of the five, each at most once and
never with null under it. So the report of whatever another report reads as is a normal form: read and
written again it is the same; and two reports read as the same status just if they have the same
normal form, and as statuses that agree just if their normal forms agree. -/
theorem reading_undoes_writing :
    (∀ phase aim details, let s := Status.ofParts phase aim details
      s.phase = phase ∧ s.details = details ∧ (s.aim?.isSome ↔ phase = .disconnecting)) ∧
    (∀ s : Status, (∃ phase aim details, s = .ofParts phase aim details) ∧
      (s.aim?.isSome ↔ s.phase = .disconnecting) ∧ readValue (ofStatus s) = .ok s ∧
      ((fields s).map Prod.fst).Nodup ∧
      ∀ field ∈ fields s, field.1 ∈ keys ∧ field.1 ≠ "details" ∧ field.2.isNull = false) ∧
    ∀ r s, read r = .ok s →
      (readValue (ofStatus s)).map ofStatus = .ok (ofStatus s) ∧
      ∀ r' s', read r' = .ok s' → (s = s' ↔ ofStatus s = ofStatus s') ∧
        s.agrees s' = (ofStatus s).agrees (ofStatus s') := by
  refine ⟨fun phase aim details => ?_, fun s => ?_, fun r s _ => ?_⟩
  · have hphase := Status.phase_ofParts phase aim details
    refine ⟨hphase, rfl, ?_⟩
    rw [Status.aim?_isSome_iff, hphase]
  · obtain ⟨hfields, hnodup⟩ := fields_sound s
    refine ⟨⟨s.phase, s.aim?, s.details, s.ofParts_parts.symm⟩, s.aim?_isSome_iff,
      readValue_ofStatus s, hnodup, fun field hfield => ?_⟩
    obtain ⟨hkey, hset⟩ := hfields field hfield
    refine ⟨hkey, ?_, hset⟩
    rintro hdetails
    rw [hdetails] at hkey
    exact absurd hkey (by decide)
  · rw [readValue_ofStatus]
    refine ⟨rfl, fun r' s' _ => ⟨⟨congrArg ofStatus, fun h => ?_⟩, (agrees_ofStatus s s').symm⟩⟩
    have hread := readValue_ofStatus s
    rw [h, readValue_ofStatus] at hread
    exact (Except.ok.inj hread).symm

/-- A report with names in other cases, the older key for the aim, a key with null under it and a null
inside a detail. -/
theorem reading_undoes_writing_older_report :
    let v : Value := .object [("state", .text "DisConnecting"), ("details", .text "RECONNECT"),
      ("endpoint", .null), ("location", .list [.null, .number (.int 1)])]
    let s : Status := ⟨.disconnecting .reconnect, { location := .list [.null, .number (.int 1)] }⟩
    read (.raw v) = .ok s ∧ ofStatus s = .object [("state", .text "disconnecting"),
        ("reason", .text "reconnect"), ("location", .list [.null, .number (.int 1)])] ∧
      (readValue (ofStatus s)).map ofStatus = .ok (ofStatus s) := by
  intro v s
  have hread : read (.raw v) = .ok s := rfl
  exact ⟨hread, rfl, (reading_undoes_writing.2.2 (.raw v) s hread).1⟩

end Report
end TunnelView
