import TunnelView.Proofs.Documents
import TunnelView.Proofs.Reports

/-!
# Which values are reports

A report is an object that names a phase under its `state`, in any case of its letters, and while
disconnecting names an aim or none. Names are looked up by the text of a value, and every value has a
text. But the text of what is no text itself never is a name: it is one of four words, or begins with
a digit, a minus or a bracket. So only texts name anything.

Key definitions: `Value.Names`, `Report.Asks`, `Report.Describes`, `Report.Faulty`.
Key theorems: `Value.lower_display_iff`, `Report.readFields_eq_ok_iff`,
`Report.readValue_eq_error_iff`, `Report.read_by_grammar`.
-/

namespace TunnelView

/-! ### How the texts of values begin -/

namespace Text

/-- Digits, the minus and the brackets that open. -/
def IsMark (c : Char) : Prop := c.isDigit = true ∨ c ∈ ['-', '[', '\x7b']

/-- A text that begins with a mark. -/
def BeginsMarked (s : String) : Prop := ∃ c rest, s.toList = c :: rest ∧ IsMark c

variable {c small : Char} {s t word : String}

/-- No mark spells a letter. -/
theorem IsMark.not_spells (h : IsMark c) (hsmall : IsSmall small) : ¬Spells c small := by
  obtain ⟨hlow, hhigh⟩ := hsmall
  have hplace : 48 ≤ c.toNat ∧ c.toNat ≤ 57 ∨ c.toNat ∈ [45, 91, 123] := by
    rcases h with hdigit | hmark
    · have hrange := Char.isDigit_iff_toNat.mp hdigit
      exact .inl hrange
    · simp only [List.mem_cons, List.not_mem_nil, or_false] at hmark
      rcases hmark with rfl | rfl | rfl <;> simp
  simp only [List.mem_cons, List.not_mem_nil, or_false] at hplace
  rintro (rfl | hcapital | ⟨rfl, -⟩)
  · omega
  · omega
  · simp at hplace

/-- What begins with a mark is no word of small letters, in whatever case. -/
theorem BeginsMarked.lower_ne (h : BeginsMarked s) (hword : ∀ c ∈ word.toList, IsSmall c) :
    lower s ≠ word := by
  obtain ⟨c, rest, hs, hmark⟩ := h
  intro hlower
  rw [lower_eq_iff hword, hs, List.forall₂_cons_left_iff] at hlower
  obtain ⟨small, rest', hspells, -, hcons⟩ := hlower
  exact hmark.not_spells (hword small (by simp [hcons])) hspells

theorem BeginsMarked.append (h : BeginsMarked s) (t : String) : BeginsMarked (s ++ t) := by
  obtain ⟨c, rest, hs, hmark⟩ := h
  exact ⟨c, rest ++ t.toList, by simp [hs], hmark⟩

theorem BeginsMarked.of_toList {rest : List Char} (hmark : IsMark c) :
    BeginsMarked (String.ofList (c :: rest)) :=
  ⟨c, rest, String.toList_ofList, hmark⟩

theorem repr_cons (n : ℕ) : ∃ c rest, (Nat.repr n).toList = c :: rest ∧ IsMark c := by
  rw [Nat.repr_eq_ofList_toDigits, String.toList_ofList]
  obtain ⟨c, rest, hdigits⟩ := List.exists_cons_of_ne_nil (Nat.toDigits_ne_nil (n := n) (b := 10))
  have hdigit := Nat.isDigit_of_mem_toDigits (by decide) le_rfl (hdigits ▸ List.mem_cons_self)
  exact ⟨c, rest, hdigits, .inl hdigit⟩

end Text

open Text (IsMark BeginsMarked)

theorem Digits.write_begins (layout : Layout) (d : Digits) : BeginsMarked (d.write layout) := by
  obtain ⟨c, rest, htext, hmark⟩ := Text.repr_cons d.digits
  unfold write
  rw [htext]
  dsimp only
  split
  · apply BeginsMarked.append
    cases rest <;> exact .of_toList hmark
  · split
    · apply BeginsMarked.append
      exact .of_toList (.inl rfl)
    · split
      · apply BeginsMarked.append
        exact .of_toList hmark
      · obtain ⟨n, hn⟩ : ∃ n, d.point.toNat = n + 1 := ⟨d.point.toNat - 1, by omega⟩
        rw [hn, List.take_succ_cons, List.cons_append]
        exact .of_toList hmark

/-- A minus in front of a text, or nothing. -/
theorem Text.BeginsMarked.signed {s : String} (h : BeginsMarked s) (negative : Bool) :
    BeginsMarked ((if negative then "-" else "") ++ s) := by
  cases negative with
  | true =>
    apply BeginsMarked.append
    exact .of_toList (.inr (by simp))
  | false => simpa using h

/-- The words that are texts of values. -/
def Text.plainWords : List String := ["True", "False", "inf", "nan"]

theorem Double.text_begins (x : Double) : x.text ∈ Text.plainWords ∨ BeginsMarked x.text := by
  cases x with
  | finite negative m e =>
    refine .inr ?_
    unfold text write
    exact (Digits.write_begins _ _).signed negative
  | infinite negative =>
    cases negative with
    | true => exact .inr (.of_toList (.inr (by simp)))
    | false => exact .inl (by simp [text, write, writeSpecial, Text.plainWords])
  | undefined => exact .inl (by simp [text, write, writeSpecial, Text.plainWords])

theorem Number.text_begins (n : Number) : n.text ∈ Text.plainWords ∨ BeginsMarked n.text := by
  cases n with
  | int n =>
    refine .inr ?_
    cases n with
    | ofNat n => exact Text.repr_cons n
    | negSucc n =>
      apply BeginsMarked.append
      exact .of_toList (.inr (by simp))
  | double x => exact x.text_begins

namespace Value

variable {v : Value} {word : String}

/-- The text of a value that is none is one of four words, or begins with a mark. -/
theorem literal_begins (hnull : v.isNull = false) (htext : ∀ s, v ≠ .text s) :
    v.literal ∈ Text.plainWords ∨ BeginsMarked v.literal := by
  cases v with
  | null => cases hnull
  | bool b => cases b <;> simp [literal, Text.plainWords]
  | number n => exact n.text_begins
  | text s => exact absurd rfl (htext s)
  | list items =>
    refine .inr ?_
    unfold literal
    apply BeginsMarked.append
    apply BeginsMarked.append
    exact .of_toList (.inr (by simp))
  | object fields =>
    refine .inr ?_
    unfold literal
    apply BeginsMarked.append
    apply BeginsMarked.append
    exact .of_toList (.inr (by simp))

/-- Whether a value is a text that is this word in lower case. -/
def Names (v : Value) (word : String) : Prop := ∃ s, v = .text s ∧ Text.lower s = word

theorem Names.isNull (h : v.Names word) : v.isNull = false := by
  obtain ⟨s, rfl, -⟩ := h
  rfl

/-- A word of small letters that is not the text of a value in disguise. -/
structure IsName (word : String) : Prop where
  small : ∀ c ∈ word.toList, Text.IsSmall c
  plain : ∀ s ∈ Text.plainWords, Text.lower s ≠ word

/-- **Only texts are names**: what the text of a value says in lower case is a name just if the
value is a text that does. -/
theorem lower_display_iff (hname : IsName word) (hnull : v.isNull = false) :
    Text.lower v.display = word ↔ v.Names word := by
  constructor
  · intro h
    by_cases htext : ∃ s, v = .text s
    · obtain ⟨s, rfl⟩ := htext
      exact ⟨s, rfl, h⟩
    · rw [not_exists] at htext
      have hdisplay : v.display = v.literal := by
        cases v <;> first | rfl | exact absurd rfl (htext _)
      rw [hdisplay] at h
      rcases literal_begins hnull htext with hword | hmark
      · exact absurd h (hname.plain _ hword)
      · exact absurd h (hmark.lower_ne hname.small)
  · rintro ⟨s, rfl, hs⟩
    exact hs

/-- A value without a text is no name either. -/
theorem lower_display?_iff (hname : IsName word) (hnull : v.isNull = false) :
    (∃ text, v.display? = some text ∧ Text.lower text = word) ↔ v.Names word := by
  constructor
  · rintro ⟨text, htext, hword⟩
    unfold display? at htext
    split at htext
    · obtain rfl := Option.some.inj htext
      exact (lower_display_iff hname hnull).mp hword
    · cases htext
  · rintro ⟨s, rfl, hs⟩
    exact ⟨s, rfl, hs⟩

end Value

theorem Phase.isName (p : Phase) : Value.IsName p.name where
  small := p.small_name
  plain := by
    cases p <;> decide +kernel

theorem Aim.isName (a : Aim) : Value.IsName a.name where
  small := a.small_name
  plain := by
    cases a <;> decide +kernel

theorem Phase.ofName?_eq_some_iff {s : String} {p : Phase} : ofName? s = some p ↔ s = p.name := by
  constructor
  · intro h
    have hp := List.find?_some h
    exact (beq_iff_eq.mp hp).symm
  · rintro rfl
    cases p <;> rfl

theorem Aim.ofName?_eq_some_iff {s : String} {a : Aim} : ofName? s = some a ↔ s = a.name := by
  constructor
  · intro h
    have ha := List.find?_some h
    exact (beq_iff_eq.mp ha).symm
  · rintro rfl
    cases a <;> rfl

/-- The phase that is looked up under the text of a value is the one that the value names. -/
theorem Phase.ofName?_display?_iff {v : Value} {p : Phase} (hnull : v.isNull = false) :
    (v.display?.bind fun text => ofName? (Text.lower text)) = some p ↔ v.Names p.name := by
  simp only [Option.bind_eq_some_iff, ofName?_eq_some_iff]
  exact Value.lower_display?_iff p.isName hnull

/-- The aim that is looked up under the text of a value is the one that the value names. -/
theorem Aim.ofName?_display?_iff {v : Value} {a : Aim} (hnull : v.isNull = false) :
    (v.display?.bind fun text => ofName? (Text.lower text)) = some a ↔ v.Names a.name := by
  simp only [Option.bind_eq_some_iff, ofName?_eq_some_iff]
  exact Value.lower_display?_iff a.isName hnull

/-- A status has the aim that it is made with, if that fits its phase. -/
theorem Status.aim?_ofParts {p : Phase} {aim? : Option Aim} {d : Details}
    (h : aim?.isSome ↔ p = .disconnecting) : (ofParts p aim? d).aim? = aim? := by
  cases p <;> cases aim? <;> simp_all [ofParts, aim?, Condition.ofParts, Condition.aim?]

namespace Report

/-! ### The grammar -/

/-- What a value asks for: an aim that it names, or to do nothing if it is null. -/
def Asks (v : Value) (aim : Aim) : Prop := v = .null ∧ aim = .nothing ∨ v.Names aim.name

/-- Which aim the fields of a report ask for: under `reason`, or under `details` if there is no such
key. -/
inductive AsksFor (fields : List (String × Value)) (aim : Aim) : Prop
  | reason {v : Value} (h : Value.find? fields "reason" = some v) (hv : Asks v aim)
  | details (h : Value.find? fields "reason" = none) (hv : Asks (Value.get fields "details") aim)

/-- What the fields of a report say of a status. -/
structure Describes (fields : List (String × Value)) (s : Status) : Prop where
  phase : (Value.get fields "state").Names s.phase.name
  aim : ∀ aim, s.aim? = some aim → AsksFor fields aim
  endpoint : s.details.endpoint = Value.get fields "endpoint"
  location : s.details.location = Value.get fields "location"
  cause : s.details.cause = Value.get fields "error_cause"

/-- What is amiss with the fields of no report, and the value whose text goes into the wording. -/
inductive Amiss (fields : List (String × Value)) : Value → Fault → Prop
  | noState (h : Value.get fields "state" = .null) :
      Amiss fields (.object fields) (.noState fields)
  | unknownState (h : Value.get fields "state" ≠ .null)
      (hnone : ∀ p : Phase, ¬(Value.get fields "state").Names p.name) :
      Amiss fields (Value.get fields "state") (.unknownState (Value.get fields "state"))
  | unknownAim (h : (Value.get fields "state").Names Phase.disconnecting.name)
      (hnone : ∀ aim, ¬AsksFor fields aim) :
      Amiss fields (aimField fields) (.unknownAim (aimField fields))

/-- What is wrong with a value that is no report: it is no object, or something is amiss with its
fields; and if the wording of that cannot be made, that it cannot. -/
inductive Faulty : Value → Fault → Prop
  | notAnObject {v : Value} (h : ∀ fields, v ≠ .object fields) : Faulty v (.notAnObject v.kind)
  | amiss {fields : List (String × Value)} {shown : Value} {fault : Fault}
      (h : Amiss fields shown fault) (htext : shown.hasText = true) : Faulty (.object fields) fault
  | noText {fields : List (String × Value)} {shown : Value} {fault : Fault}
      (h : Amiss fields shown fault) (htext : shown.hasText = false) :
      Faulty (.object fields) .noText

variable {fields fields' : List (String × Value)} {s : Status} {v : Value} {fault : Fault} {aim : Aim}
  {p q : Phase}

/-- A value names one phase at most. -/
theorem phase_unique (hp : v.Names p.name) (hq : v.Names q.name) : p = q := by
  obtain ⟨s, rfl, hs⟩ := hp
  obtain ⟨s', hs', hq⟩ := hq
  cases hs'
  exact Phase.name_inj.mp (hs.symm.trans hq)

/-- A value asks for one aim at most. -/
theorem Asks.unique {aim' : Aim} (h : Asks v aim) (h' : Asks v aim') : aim = aim' := by
  rcases h with ⟨rfl, rfl⟩ | ⟨s, rfl, hs⟩ <;> rcases h' with ⟨hnull, rfl⟩ | ⟨s', hs', h'⟩
  · rfl
  · cases hs'
  · cases hnull
  · cases hs'
    exact Aim.name_inj.mp (hs.symm.trans h')

theorem asksFor_iff : AsksFor fields aim ↔ Asks (aimField fields) aim := by
  unfold aimField
  cases h : Value.find? fields "reason" with
  | none =>
    constructor
    · rintro (⟨hreason, -⟩ | ⟨-, hv⟩)
      · rw [h] at hreason
        cases hreason
      · exact hv
    · exact .details h
  | some v =>
    constructor
    · rintro (⟨hreason, hv⟩ | ⟨hreason, -⟩)
      · rw [h] at hreason
        cases hreason
        exact hv
      · rw [h] at hreason
        cases hreason
    · exact .reason h

theorem readAim_eq_ok_iff : readAim fields = .ok aim ↔ AsksFor fields aim := by
  rw [asksFor_iff]
  unfold readAim
  dsimp only
  cases hnull : (aimField fields).isNull with
  | true =>
    have hnothing : Asks (aimField fields) .nothing := .inl ⟨Value.isNull_iff.mp hnull, rfl⟩
    rw [if_pos rfl, Except.ok.injEq]
    constructor
    · rintro rfl
      exact hnothing
    · exact hnothing.unique
  | false =>
    have hasks : Asks (aimField fields) aim ↔ (aimField fields).Names aim.name := by
      have hset : aimField fields ≠ .null := fun h => by simp [h, Value.isNull] at hnull
      simp [Asks, hset]
    rw [if_neg Bool.false_ne_true, hasks, ← Aim.ofName?_display?_iff hnull]
    cases (aimField fields).display?.bind fun text => Aim.ofName? (Text.lower text) <;> simp

theorem readAim_eq_error_iff : readAim fields = .error fault ↔
    fault = .about (aimField fields) (.unknownAim (aimField fields)) ∧
      ∀ aim, ¬AsksFor fields aim := by
  have hfault : ∀ fault, readAim fields = .error fault →
      fault = .about (aimField fields) (.unknownAim (aimField fields)) := by
    intro fault h
    unfold readAim at h
    dsimp only at h
    split at h
    · cases h
    · split at h <;> cases h
      rfl
  simp only [← readAim_eq_ok_iff]
  cases hread : readAim fields with
  | ok aim => simp
  | error fault' =>
    obtain rfl := hfault fault' hread
    simp [eq_comm]

/-- The aim that fields give to a phase: only while disconnecting there is one. -/
def aimFor (p : Phase) (fields : List (String × Value)) : Except Fault (Option Aim) :=
  if p = .disconnecting then (readAim fields).map some else .ok none

theorem aimFor_eq_ok_iff {aim? : Option Aim} : aimFor p fields = .ok aim? ↔
    (aim?.isSome ↔ p = .disconnecting) ∧ ∀ aim, aim? = some aim → AsksFor fields aim := by
  unfold aimFor
  by_cases hp : p = .disconnecting
  · simp only [hp, iff_true, ← readAim_eq_ok_iff]
    cases readAim fields <;> cases aim? <;> simp [Except.map, eq_comm]
  · simp only [hp, iff_false, Bool.not_eq_true]
    cases aim? <;> simp

theorem aimFor_eq_error_iff : aimFor p fields = .error fault ↔ p = .disconnecting ∧
    fault = .about (aimField fields) (.unknownAim (aimField fields)) ∧
      ∀ aim, ¬AsksFor fields aim := by
  unfold aimFor
  by_cases hp : p = .disconnecting
  · simp only [hp, true_and, ← readAim_eq_error_iff]
    cases readAim fields <;> simp [Except.map]
  · simp [hp]

/-- Fields without anything under `state` are no report. -/
theorem readFields_of_null (hnull : Value.get fields "state" = .null) :
    readFields fields = .error (.about (.object fields) (.noState fields)) := by
  unfold readFields
  simp [hnull, Value.isNull]

/-- Fields that name no phase are no report. -/
theorem readFields_of_unknown (hnull : Value.get fields "state" ≠ .null)
    (h : ∀ p : Phase, ¬(Value.get fields "state").Names p.name) :
    readFields fields =
      .error (.about (Value.get fields "state") (.unknownState (Value.get fields "state"))) := by
  have hset : (Value.get fields "state").isNull = false := by
    rwa [← Bool.not_eq_true, Value.isNull_iff]
  have hphase : ((Value.get fields "state").display?.bind fun text =>
      Phase.ofName? (Text.lower text)) = none := by
    rw [Option.eq_none_iff_forall_ne_some]
    intro p hp
    exact h p ((Phase.ofName?_display?_iff hset).mp hp)
  unfold readFields
  simp only [hset, Bool.false_eq_true, if_false, hphase]

/-- Fields that name a phase are read as a status of that phase, if the aim can be read. -/
theorem readFields_of_names (h : (Value.get fields "state").Names p.name) :
    readFields fields = (aimFor p fields).map fun aim? => .ofParts p aim? (readDetails fields) := by
  have hphase := (Phase.ofName?_display?_iff h.isNull).mpr h
  unfold readFields
  simp only [h.isNull, Bool.false_eq_true, if_false, hphase]
  cases p
  case disconnecting =>
    rw [aimFor, if_pos rfl]
    cases readAim fields <;> rfl
  all_goals rfl

/-- The three ways in which the state of a report can be given. -/
theorem state_cases (fields : List (String × Value)) :
    Value.get fields "state" = .null ∨ (∃ p : Phase, (Value.get fields "state").Names p.name) ∨
      Value.get fields "state" ≠ .null ∧ ∀ p : Phase, ¬(Value.get fields "state").Names p.name := by
  by_cases hnull : Value.get fields "state" = .null
  · exact .inl hnull
  · by_cases hnames : ∃ p : Phase, (Value.get fields "state").Names p.name
    · exact .inr (.inl hnames)
    · exact .inr (.inr ⟨hnull, not_exists.mp hnames⟩)

theorem not_names_of_null (hnull : v = .null) {word : String} : ¬v.Names word := by
  rintro ⟨s, rfl, -⟩
  cases hnull

/-- What a report describes is made of its phase, its aim and its details. -/
theorem describes_iff (hp : (Value.get fields "state").Names p.name) : Describes fields s ↔
    ∃ aim?, aimFor p fields = .ok aim? ∧ s = .ofParts p aim? (readDetails fields) := by
  constructor
  · intro h
    obtain rfl := phase_unique hp h.phase
    have hdetails : s.details = readDetails fields := by
      obtain ⟨condition, endpoint, location, cause⟩ := s
      simp only [readDetails, ← h.endpoint, ← h.location, ← h.cause]
    refine ⟨s.aim?, aimFor_eq_ok_iff.mpr ⟨s.aim?_isSome_iff, h.aim⟩, ?_⟩
    rw [← hdetails, s.ofParts_parts]
  · rintro ⟨aim?, haim, rfl⟩
    obtain ⟨hsome, hasks⟩ := aimFor_eq_ok_iff.mp haim
    refine ⟨by rwa [Status.phase_ofParts], ?_, rfl, rfl, rfl⟩
    rwa [Status.aim?_ofParts hsome]

/-- **Fields are read as the status that they describe.** -/
theorem readFields_eq_ok_iff : readFields fields = .ok s ↔ Describes fields s := by
  rcases state_cases fields with hnull | ⟨p, hp⟩ | ⟨hset, hnone⟩
  · rw [readFields_of_null hnull]
    constructor
    · exact nofun
    · intro h
      exact absurd h.phase (not_names_of_null hnull)
  · rw [readFields_of_names hp, describes_iff hp]
    cases aimFor p fields <;> simp [Except.map, eq_comm]
  · rw [readFields_of_unknown hset hnone]
    constructor
    · exact nofun
    · intro h
      exact absurd h.phase (hnone s.phase)

/-- Fields are refused for what is amiss with them. -/
theorem readFields_eq_error_iff : readFields fields = .error fault ↔
    ∃ shown fault', Amiss fields shown fault' ∧ fault = .about shown fault' := by
  rcases state_cases fields with hnull | ⟨p, hp⟩ | ⟨hset, hnone⟩
  · rw [readFields_of_null hnull]
    constructor
    · rintro ⟨⟩
      exact ⟨_, _, .noState hnull, rfl⟩
    · rintro ⟨shown, fault', h, rfl⟩
      cases h with
      | noState => rfl
      | unknownState hset => exact absurd hnull hset
      | unknownAim hp => exact absurd hp (not_names_of_null hnull)
  · have hread : readFields fields = .error fault ↔ aimFor p fields = .error fault := by
      rw [readFields_of_names hp]
      cases aimFor p fields <;> simp [Except.map]
    rw [hread, aimFor_eq_error_iff]
    constructor
    · rintro ⟨rfl, rfl, hnone⟩
      exact ⟨_, _, .unknownAim hp hnone, rfl⟩
    · rintro ⟨shown, fault', h, rfl⟩
      cases h with
      | noState hnull => exact absurd hp (not_names_of_null hnull)
      | unknownState _ hnone => exact absurd hp (hnone p)
      | unknownAim hp' hnone => exact ⟨phase_unique hp hp', rfl, hnone⟩
  · rw [readFields_of_unknown hset hnone]
    constructor
    · rintro ⟨⟩
      exact ⟨_, _, .unknownState hset hnone, rfl⟩
    · rintro ⟨shown, fault', h, rfl⟩
      cases h with
      | noState hnull => exact absurd hnull hset
      | unknownState => rfl
      | unknownAim hp => exact absurd hp (hnone _)

theorem faulty_object_iff : Faulty (.object fields) fault ↔
    ∃ shown fault', Amiss fields shown fault' ∧ fault = .about shown fault' := by
  constructor
  · intro h
    cases h with
    | notAnObject h => exact absurd rfl (h fields)
    | amiss h htext => exact ⟨_, _, h, (if_pos htext).symm⟩
    | noText h htext => exact ⟨_, _, h, (if_neg (by simp [htext])).symm⟩
  · rintro ⟨shown, fault', h, rfl⟩
    unfold Fault.about
    split
    · exact .amiss h ‹_›
    · exact .noText h (Bool.not_eq_true _ ▸ ‹_›)

/-- **A value is refused for the fault that it has**, and there is no other reason. -/
theorem readValue_eq_error_iff : readValue v = .error fault ↔ Faulty v fault := by
  cases v with
  | object fields =>
    rw [faulty_object_iff]
    exact readFields_eq_error_iff
  | _ =>
    constructor
    · rintro ⟨⟩
      exact .notAnObject nofun
    · intro h
      cases h
      rfl

theorem hasText_aimField (h : (Value.object fields).hasText = true) :
    (aimField fields).hasText = true := by
  unfold aimField
  cases hreason : Value.find? fields "reason" with
  | none => exact Value.hasText_get h "details"
  | some v => exact Value.hasText_find? h hreason

/-- What is shown of a report that has a text has one. -/
theorem Amiss.hasText {shown : Value} (h : Amiss fields shown fault)
    (htext : (Value.object fields).hasText = true) : shown.hasText = true := by
  cases h with
  | noState => exact htext
  | unknownState => exact Value.hasText_get htext "state"
  | unknownAim => exact hasText_aimField htext

theorem Amiss.isForeseen {shown : Value} (h : Amiss fields shown fault) :
    fault.isForeseen = true := by
  cases h <;> rfl

/-- **A value with a text is refused for a fault that was foreseen**, if it is. -/
theorem Faulty.isForeseen (h : Faulty v fault) (htext : v.hasText = true) :
    fault.isForeseen = true := by
  cases h with
  | notAnObject => rfl
  | amiss h => exact h.isForeseen
  | noText h hno =>
    rw [h.hasText htext] at hno
    cases hno

end Report
end TunnelView
