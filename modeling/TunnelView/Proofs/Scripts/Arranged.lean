import TunnelView.Proofs.Documents
import TunnelView.Proofs.Scripts.Times

/-!
# What is read of a script

A script asks its events to have a time from zero on, just one action, and an expectation that is
known. What is read of it are its events in their stable order. This holds of all scripts in which no
time is undefined. An undefined time is not below zero, so it is let through, and behind it events may
be out of order.

A script is refused for the first of its items that is no such event, with a wording that shows an
unknown expectation. If that has no text, nothing is refused, and the wording itself fails; but this
never comes from a document.

Key definitions: `Script.Proper`, `Script.Definite`, `Script.Arranged`, `Script.Wrong`,
`Script.Flawed`.
Key theorems: `Script.readEvent_eq_error_iff`, `Script.read_eq_error_iff`, `Script.read_eq_ok_iff`,
`Script.reads_in_stable_order`.
-/

namespace TunnelView.Script

variable {e : Event} {events events' : List Event} {t : Number} {v item : Value}
  {items items' : List Value} {fields : List (String × Value)} {fault : Fault} {problem : Problem}

/-- What a script asks of the fields of its events. -/
structure Proper (fields : List (String × Value)) : Prop where
  time : ∃ n, Value.find? fields "at_ms" = some (.number n) ∧ 0 ≤ n
  action : ∃! key, key ∈ actionKeys ∧ (Value.find? fields key).isSome
  expectation : ∀ kind, Value.find? fields "expect" = some kind →
    kind = .text "connecting" ∨ kind = .text "disconnecting"

/-- No item has the undefined number for its time. -/
def Definite (items : List Value) : Prop :=
  ∀ item ∈ items, ∀ fields n, item = .object fields →
    Value.find? fields "at_ms" = some (.number n) → n ≤ n

/-- Whether an item comes at a time. -/
def standsAt (t : Number) : Value → Bool
  | .object fields =>
    match Value.get fields "at_ms" with
    | .number n => n ≤ t && t ≤ n
    | _ => false
  | _ => false

/-- The stable order of the items of a script: they are its events, unchanged, each not before those
in front of it, and those of one time as they stood. -/
structure Arranged (items : List Value) (events : List Event) : Prop where
  taken : ∀ e ∈ events, Proper e.fields ∧ Value.find? e.fields "at_ms" = some (.number e.time)
  perm : (events.map Event.value).Perm items
  ordered : events.Pairwise fun a b => a.time ≤ b.time
  stable : ∀ t, (events.map Event.value).filter (standsAt t) = items.filter (standsAt t)

/-- What is wrong with an item that is no event: the first thing that is, of those that are asked
for. -/
inductive Wrong : Value → Problem → Prop
  | notAnObject {v : Value} (h : ∀ fields, v ≠ .object fields) : Wrong v (.notAnObject v.kind)
  | noTime {fields : List (String × Value)} (h : ¬IsTimed fields) : Wrong (.object fields) .noTime
  | actions {fields : List (String × Value)} (htime : IsTimed fields) (h : ¬IsSingle fields) :
    Wrong (.object fields) (.actions (actionsOf fields))
  | expectation {fields : List (String × Value)} {kind : Value} (htime : IsTimed fields)
    (haction : IsSingle fields) (hkind : Value.find? fields "expect" = some kind)
    (hunknown : ¬(kind = .text "connecting" ∨ kind = .text "disconnecting"))
    (htext : kind.hasText = true) : Wrong (.object fields) (.expectation kind)
  | noText {fields : List (String × Value)} {kind : Value} (htime : IsTimed fields)
    (haction : IsSingle fields) (hkind : Value.find? fields "expect" = some kind)
    (htext : kind.hasText = false) : Wrong (.object fields) .noText

/-- What is wrong with a value that is no script: it is no list, or something is wrong with an item,
the first one that is no event. -/
inductive Flawed : Value → Fault → Prop
  | notAList {v : Value} (h : ∀ items, v ≠ .list items) : Flawed v .notAList
  | event {front : List Value} {item : Value} {rest : List Value} {problem : Problem}
      (hfront : IsScript front) (hitem : Wrong item problem) :
      Flawed (.list (front ++ item :: rest)) (.event front.length problem)

/-- Well-formed fields are proper, unless their time is undefined. -/
theorem proper_iff : Proper fields ↔ WellFormed fields ∧
    ∀ n, Value.find? fields "at_ms" = some (.number n) → n ≤ n := by
  constructor
  · rintro ⟨⟨n, hn, hzero⟩, haction, hexpect⟩
    refine ⟨⟨⟨n, hn, (Number.zero_le_iff.mp hzero).1⟩, haction, hexpect⟩, fun m hm => ?_⟩
    obtain rfl := Value.number.inj (Option.some.inj (hn.symm.trans hm))
    exact (Number.zero_le_iff.mp hzero).2
  · rintro ⟨⟨⟨n, hn, hneg⟩, haction, hexpect⟩, hdefined⟩
    exact ⟨⟨n, hn, Number.zero_le_iff.mpr ⟨hneg, hdefined n hn⟩⟩, haction, hexpect⟩

/-- With definite times, a script asks what it checks. -/
theorem isScript_iff_proper (hdefinite : Definite items) :
    IsScript items ↔ ∀ item ∈ items, ∃ fields, item = .object fields ∧ Proper fields := by
  refine forall₂_congr fun item hitem => ⟨?_, ?_⟩
  · rintro ⟨fields, rfl, hwell⟩
    exact ⟨fields, rfl, proper_iff.mpr ⟨hwell, fun n => hdefinite _ hitem fields n rfl⟩⟩
  · rintro ⟨fields, rfl, hproper⟩
    exact ⟨fields, rfl, (proper_iff.mp hproper).1⟩

theorem isTimed_iff : IsTimed fields ↔ ∃ n, readTime (Value.get fields "at_ms") = some n := by
  simp only [readTime_eq_some, get_eq_number, IsTimed]

theorem ofValue?_eq_none {kind : Value} : Assumption.ofValue? kind = none ↔
    ¬(kind = .text "connecting" ∨ kind = .text "disconnecting") := by
  rw [← Assumption.ofValue?_isSome, Option.not_isSome_iff_eq_none]

/-- An expectation that has no text is unknown. -/
theorem ofValue?_of_textless {kind : Value} (h : kind.hasText = false) :
    Assumption.ofValue? kind = none := by
  rw [ofValue?_eq_none]
  rintro (rfl | rfl) <;> cases h

theorem Wrong.of_readEvent (h : readEvent item = .error problem) : Wrong item problem := by
  cases item with
  | object fields =>
    rw [readEvent] at h
    cases htime : readTime (Value.get fields "at_ms") with
    | none =>
      rw [htime] at h
      cases h
      exact .noTime (by simp [isTimed_iff, htime])
    | some n =>
      have htimed : IsTimed fields := isTimed_iff.mpr ⟨n, htime⟩
      rw [htime] at h
      by_cases haction : (actionsOf fields).length = 1
      · have hsingle : IsSingle fields := actionsOf_length.mp haction
        cases hkind : Value.find? fields "expect" with
        | none => simp [haction, hkind] at h
        | some kind =>
          cases hknown : Assumption.ofValue? kind with
          | some a => simp [haction, hkind, hknown] at h
          | none =>
            have hunknown := ofValue?_eq_none.mp hknown
            cases htext : kind.hasText <;> simp [haction, hkind, hknown, htext] at h
            · exact h ▸ .noText htimed hsingle hkind htext
            · exact h ▸ .expectation htimed hsingle hkind hunknown htext
      · have hproblem : problem = .actions (actionsOf fields) := by simpa [haction] using h.symm
        exact hproblem ▸ .actions htimed (mt actionsOf_length.mpr haction)
  | _ =>
    cases h
    refine .notAnObject fun fields hobject => ?_
    cases hobject

/-- An item is refused for what is wrong with it. -/
theorem readEvent_eq_error_iff : readEvent item = .error problem ↔ Wrong item problem := by
  refine ⟨.of_readEvent, fun h => ?_⟩
  cases h with
  | notAnObject h =>
    cases item with
    | object fields => exact absurd rfl (h fields)
    | _ => rfl
  | @noTime fields h =>
    have htime : readTime (Value.get fields "at_ms") = none := by
      cases htime : readTime (Value.get fields "at_ms") with
      | none => rfl
      | some n => exact absurd (isTimed_iff.mpr ⟨n, htime⟩) h
    simp [readEvent, htime]
  | actions htime haction =>
    obtain ⟨n, htime⟩ := isTimed_iff.mp htime
    simp [readEvent, htime, mt actionsOf_length.mp haction]
  | expectation htime haction hkind hunknown htext =>
    obtain ⟨n, htime⟩ := isTimed_iff.mp htime
    have hactions := actionsOf_length.mpr haction
    simp [readEvent, htime, hactions, hkind, ofValue?_eq_none.mpr hunknown, htext]
  | noText htime haction hkind htext =>
    obtain ⟨n, htime⟩ := isTimed_iff.mp htime
    have hactions := actionsOf_length.mpr haction
    simp [readEvent, htime, hactions, hkind, ofValue?_of_textless htext, htext]

/-- The wording of what is wrong with an item that has a text does not fail. -/
theorem Wrong.ne_noText (h : Wrong item problem) (hitem : item.hasText = true) :
    problem ≠ .noText := by
  rintro rfl
  cases h with
  | noText _ _ hkind htext =>
    rw [Value.hasText_find? hitem hkind] at htext
    contradiction

/-- What is wrong with a value that has a text is among what was foreseen. -/
theorem Flawed.isForeseen (h : Flawed v fault) (hv : v.hasText = true) :
    fault.isForeseen = true := by
  cases h with
  | notAList => rfl
  | @event front item rest problem _ hitem =>
    have hne := hitem.ne_noText (Value.hasText_of_mem hv item (by simp))
    cases problem <;> first | rfl | contradiction

/-- An item is refused if it is ill-formed. -/
theorem exists_problem_iff : (∃ problem, readEvent item = .error problem) ↔
    ∀ fields, item = .object fields → ¬WellFormed fields := by
  constructor
  · rintro ⟨problem, hitem⟩ fields rfl hwell
    obtain ⟨n, hn, -⟩ := hwell.time
    have hread : readEvent (.object fields) = .ok ⟨n, fields⟩ :=
      readEvent_eq_ok.mpr ⟨rfl, hn, hwell⟩
    rw [hitem] at hread
    cases hread
  · intro hill
    cases hread : readEvent item with
    | error problem => exact ⟨problem, rfl⟩
    | ok e =>
      obtain ⟨hvalue, -, hwell⟩ := readEvent_eq_ok.mp hread
      exact absurd hwell (hill e.fields hvalue)

/-- Events are refused for the first that is. -/
theorem readEvents_eq_error_iff {index : ℕ} : readEvents index items = .error fault ↔
    ∃ front item rest problem, items = front ++ item :: rest ∧ IsScript front ∧
      Wrong item problem ∧ fault = .event (index + front.length) problem := by
  simp only [← readEvent_eq_error_iff]
  induction items generalizing index with
  | nil => simp [readEvents]
  | cons item items ih =>
    unfold readEvents
    cases hitem : readEvent item with
    | error problem =>
      simp only [Except.error.injEq]
      constructor
      · rintro rfl
        exact ⟨[], item, items, problem, rfl, List.forall_mem_nil _, hitem, rfl⟩
      · rintro ⟨front, item', rest, problem', hitems, hfront, hitem', rfl⟩
        cases front with
        | nil =>
          obtain ⟨rfl, rfl⟩ := List.cons.inj hitems
          rw [hitem] at hitem'
          cases hitem'
          rfl
        | cons first front =>
          obtain ⟨rfl, rfl⟩ := List.cons.inj hitems
          obtain ⟨fields, hobject, hwell⟩ := hfront item (.head _)
          exact absurd hwell (exists_problem_iff.mp ⟨problem, hitem⟩ fields hobject)
    | ok e =>
      have hmap : (readEvents (index + 1) items).map (e :: ·) = .error fault ↔
          readEvents (index + 1) items = .error fault := by
        cases readEvents (index + 1) items <;> simp [Except.map]
      obtain ⟨hvalue, -, hwell⟩ := readEvent_eq_ok.mp hitem
      simp only [hmap, ih]
      constructor
      · rintro ⟨front, item', rest, problem, rfl, hfront, hitem', rfl⟩
        refine ⟨item :: front, item', rest, problem, rfl, ?_, hitem', ?_⟩
        · exact List.forall_mem_cons.mpr ⟨⟨e.fields, hvalue, hwell⟩, hfront⟩
        · rw [List.length_cons, Nat.add_right_comm, Nat.add_assoc]
      · rintro ⟨front, item', rest, problem, hitems, hfront, hitem', rfl⟩
        cases front with
        | nil =>
          obtain ⟨rfl, rfl⟩ := List.cons.inj hitems
          rw [hitem] at hitem'
          cases hitem'
        | cons first front =>
          obtain ⟨rfl, rfl⟩ := List.cons.inj hitems
          refine ⟨front, item', rest, problem, rfl, (List.forall_mem_cons.mp hfront).2, hitem', ?_⟩
          rw [List.length_cons, Nat.add_right_comm, Nat.add_assoc]

/-- **A value is refused for what is wrong with it**, and there is no other reason. -/
theorem read_eq_error_iff : read v = .error fault ↔ Flawed v fault := by
  cases v with
  | list items =>
    have hmap : read (.list items) = .error fault ↔ readEvents 0 items = .error fault := by
      rw [read]
      cases readEvents 0 items <;> simp [Except.map]
    rw [hmap, readEvents_eq_error_iff]
    constructor
    · rintro ⟨front, item, rest, problem, rfl, hfront, hitem, rfl⟩
      rw [Nat.zero_add]
      exact .event hfront hitem
    · rintro (h | ⟨hfront, hitem⟩)
      · exact absurd rfl (h items)
      · exact ⟨_, _, _, _, rfl, hfront, hitem, by rw [Nat.zero_add]⟩
  | _ =>
    constructor
    · rintro ⟨⟩
      refine .notAList fun items hlist => ?_
      cases hlist
    · intro h
      cases h
      rfl

theorem standsAt_value (htime : Value.find? e.fields "at_ms" = some (.number e.time)) :
    standsAt t e.value = e.isAt t := by
  simp only [standsAt, Event.value, get_eq_number.mpr htime, Event.isAt]

/-- The events of a time are the items of that time. -/
theorem filter_standsAt
    (h : ∀ e ∈ events, Value.find? e.fields "at_ms" = some (.number e.time)) :
    (events.map Event.value).filter (standsAt t) =
      (events.filter (Event.isAt t)).map Event.value := by
  rw [List.filter_map]
  congr 1
  exact List.filter_congr fun e he => standsAt_value (h e he)

/-- Events that are taken are known from their values. -/
theorem eq_of_map_value (h : ∀ e ∈ events, readEvent e.value = .ok e)
    (h' : ∀ e ∈ events', readEvent e.value = .ok e)
    (hvalues : events.map Event.value = events'.map Event.value) : events = events' := by
  have hread : readEvents 0 (events.map Event.value) = .ok events :=
    readEvents_eq_ok.mpr ⟨rfl, h⟩
  have hread' : readEvents 0 (events'.map Event.value) = .ok events' :=
    readEvents_eq_ok.mpr ⟨rfl, h'⟩
  rw [hvalues, hread'] at hread
  exact (Except.ok.inj hread).symm

namespace Arranged

theorem readEvent_eq (h : Arranged items events) : ∀ e ∈ events, readEvent e.value = .ok e := by
  intro e he
  obtain ⟨hproper, htime⟩ := h.taken e he
  exact readEvent_eq_ok.mpr ⟨rfl, htime, (proper_iff.mp hproper).1⟩

theorem isPlaced (h : Arranged items events) : ∀ e ∈ events, e.isPlaced := by
  intro e he
  obtain ⟨hproper, htime⟩ := h.taken e he
  exact Event.isPlaced_iff.mpr ((proper_iff.mp hproper).2 e.time htime)

/-- A script has one stable order. -/
theorem unique (h : Arranged items events) (h' : Arranged items events') : events = events' := by
  refine eq_of_filter_eq h.isPlaced h'.isPlaced h.ordered h'.ordered fun t => ?_
  have hvalues : (events.filter (Event.isAt t)).map Event.value =
      (events'.filter (Event.isAt t)).map Event.value := by
    rw [← filter_standsAt fun e he => (h.taken e he).2, h.stable,
      ← filter_standsAt fun e he => (h'.taken e he).2, h'.stable]
  exact eq_of_map_value (fun e he => h.readEvent_eq e (List.mem_filter.mp he).1)
    (fun e he => h'.readEvent_eq e (List.mem_filter.mp he).1) hvalues

/-- The stable order depends on the items and on the order of those of one time. -/
theorem congr (h : Arranged items events) (hperm : items'.Perm items)
    (hstable : ∀ t, items'.filter (standsAt t) = items.filter (standsAt t)) :
    Arranged items' events where
  taken := h.taken
  perm := h.perm.trans hperm.symm
  ordered := h.ordered
  stable t := (h.stable t).trans (hstable t).symm

/-- Events in their stable order are in the stable order of their values. -/
theorem again (h : Arranged items events) : Arranged (events.map Event.value) events :=
  h.congr h.perm h.stable

end Arranged

/-- With definite times, a script is put into its stable order. -/
theorem arranged_of_read (hdefinite : Definite items) (h : read (.list items) = .ok events) :
    Arranged items events := by
  obtain ⟨taken, hitems, rfl⟩ := read_list_eq_ok.mp h
  obtain ⟨rfl, htaken⟩ := readEvents_eq_ok.mp hitems
  have hproper : ∀ e ∈ taken, Proper e.fields ∧
      Value.find? e.fields "at_ms" = some (.number e.time) := by
    intro e he
    obtain ⟨-, htime, hwell⟩ := readEvent_eq_ok.mp (htaken e he)
    have hdefined := hdefinite e.value (List.mem_map_of_mem he) e.fields
    exact ⟨proper_iff.mpr ⟨hwell, fun n => hdefined n rfl⟩, htime⟩
  have hplaced : ∀ e ∈ taken, e.isPlaced := by
    intro e he
    obtain ⟨hproper, htime⟩ := hproper e he
    exact Event.isPlaced_iff.mpr ((proper_iff.mp hproper).2 e.time htime)
  have harranged : ∀ e ∈ arrange taken, e ∈ taken := fun e => (arrange_perm taken).mem_iff.mp
  refine ⟨fun e he => hproper e (harranged e he), (arrange_perm taken).map _,
    arrange_ordered hplaced, fun t => ?_⟩
  rw [filter_standsAt fun e he => (hproper e (harranged e he)).2, arrange_stable hplaced,
    filter_standsAt fun e he => (hproper e he).2]

theorem Arranged.isScript (h : Arranged items events) : IsScript items := by
  intro item hitem
  obtain ⟨e, he, rfl⟩ := List.mem_map.mp (h.perm.mem_iff.mpr hitem)
  exact ⟨e.fields, rfl, (proper_iff.mp (h.taken e he).1).1⟩

theorem Arranged.definite (h : Arranged items events) : Definite items := by
  rintro item hitem fields n rfl hn
  obtain ⟨e, he, hvalue⟩ := List.mem_map.mp (h.perm.mem_iff.mpr hitem)
  obtain rfl := Value.object.inj hvalue
  exact (proper_iff.mp (h.taken e he).1).2 n hn

/-- **A script is read as its stable order**, if its times are definite. -/
theorem read_eq_ok_iff (hdefinite : Definite items) :
    read (.list items) = .ok events ↔ Arranged items events := by
  constructor
  · exact arranged_of_read hdefinite
  · intro h
    obtain ⟨events', hread⟩ := exists_read_iff.mpr ⟨items, rfl, h.isScript⟩
    rw [hread, h.unique (arranged_of_read hdefinite hread)]

/-- A script read and replayed, with given delays, until a given end. -/
def replayed (v : Value) (config : Option (GivenDelays Value)) (given : GivenDelays Value)
    (until? : Option Value) : Except Fault (Replay.Outcome Number) :=
  (read v).map fun events => Replay.run config given (.list (events.map Event.value)) until?

/-- A list is taken just if its items are as a script asks them to be, unless it is a script but for
an undefined time. -/
theorem taken_iff_proper_iff :
    ((∃ events, read (.list items) = .ok events) ↔
      ∀ item ∈ items, ∃ fields, item = .object fields ∧ Proper fields) ↔
    (IsScript items → Definite items) := by
  have htaken : (∃ events, read (.list items) = .ok events) ↔ IsScript items := by
    rw [exists_read_iff]
    constructor
    · rintro ⟨_, ⟨⟩, hscript⟩
      exact hscript
    · exact fun hscript => ⟨items, rfl, hscript⟩
  rw [htaken]
  constructor
  · rintro hproper hscript item hitem fields n rfl hn
    obtain ⟨_, ⟨⟩, hfields⟩ := hproper.mp hscript _ hitem
    exact (proper_iff.mp hfields).2 n hn
  · intro hdefinite
    constructor
    · intro hscript
      exact (isScript_iff_proper (hdefinite hscript)).mp hscript
    · intro hproper item hitem
      obtain ⟨fields, rfl, hfields⟩ := hproper item hitem
      exact ⟨fields, rfl, (proper_iff.mp hfields).1⟩

/-- **A script is read in its stable order.** A value can be read just if it is a list of
well-formed events, and else it is refused for what is wrong with it: that it is no list, or what is
wrong with the first item that is ill-formed. All this was foreseen if the value has a text, as every
value of a document has; the one thing that was not is an unknown expectation without one. What is
read are the items, unchanged. So a list is taken just if its items are as a script asks them to be,
with times from zero on, unless it is a script but for an undefined time. If no time is undefined,
the items are read in the one order in which each event is not before those in front of it, and those
of one time are as they stood. Then another order of a script in which events of one time are as they
stood is read and replayed alike, and reading again what was read changes nothing. -/
theorem reads_in_stable_order (v : Value) :
    ((∃ events, read v = .ok events) ↔ ∃ items, v = .list items ∧ IsScript items) ∧
    (∀ fault, read v = .error fault ↔ Flawed v fault) ∧
    ((v.hasText = true ∨ ∃ text half?, Json.document text = .ok (v, half?)) →
      ∀ fault, read v = .error fault → fault.isForeseen = true) ∧
    ∀ items, v = .list items →
      (∀ events, read v = .ok events → (events.map Event.value).Perm items) ∧
      (((∃ events, read v = .ok events) ↔
          ∀ item ∈ items, ∃ fields, item = .object fields ∧ Proper fields) ↔
        (IsScript items → Definite items)) ∧
      (Definite items →
        (∀ events, read v = .ok events ↔ Arranged items events) ∧
        (∀ items', IsScript items → items'.Perm items →
          (∀ t, items'.filter (standsAt t) = items.filter (standsAt t)) →
          read (.list items') = read v ∧ replayed (.list items') = replayed v) ∧
        ∀ events, read v = .ok events → read (.list (events.map Event.value)) = .ok events) := by
  refine ⟨exists_read_iff, fun fault => read_eq_error_iff, fun htext fault h => ?_, ?_⟩
  · refine (read_eq_error_iff.mp h).isForeseen (htext.elim id ?_)
    exact fun ⟨_, _, hdocument⟩ => Json.hasText_of_document hdocument
  rintro items rfl
  refine ⟨?_, taken_iff_proper_iff, fun hdefinite => ⟨fun events => read_eq_ok_iff hdefinite, ?_, ?_⟩⟩
  · intro events h
    obtain ⟨items', hitems, hperm, -⟩ := read_eq_ok h
    obtain rfl := Value.list.inj hitems
    exact hperm
  · intro items' hscript hperm hstable
    obtain ⟨events, hread⟩ := exists_read_iff.mpr ⟨items, rfl, hscript⟩
    have harranged := (arranged_of_read hdefinite hread).congr hperm hstable
    have hsame : read (.list items') = read (.list items) := by
      rw [hread, (read_eq_ok_iff harranged.definite).mpr harranged]
    refine ⟨hsame, ?_⟩
    funext config given until?
    rw [replayed, replayed, hsame]
  · intro events hread
    have harranged := (arranged_of_read hdefinite hread).again
    exact (read_eq_ok_iff harranged.definite).mpr harranged

/-- An event of a script that resets at a time. -/
def resetAt (time : Number) : Event := ⟨time, [("at_ms", .number time), ("reset", .bool true)]⟩

theorem proper_resetAt {time : Number} (h : 0 ≤ time) : Proper (resetAt time).fields where
  time := ⟨time, rfl, h⟩
  action := ⟨"reset", by simp [actionKeys, resetAt, Value.find?], by
    simp [actionKeys, resetAt, Value.find?]⟩
  expectation := by simp [resetAt, Value.find?]

/-- A late event in front of two of one time, one of them given as an integer and one as a double.
The two stay as they stand, wherever the late one is. -/
theorem reads_in_stable_order_mixed :
    let late := resetAt (.int 2)
    let plain := resetAt (.int 1)
    let double := resetAt (.double (.ofInt 1))
    read (.list [late.value, plain.value, double.value]) = .ok [plain, double, late] ∧
      read (.list [plain.value, late.value, double.value]) = .ok [plain, double, late] ∧
      read (.list [plain.value, double.value, late.value]) = .ok [plain, double, late] := by
  intro late plain double
  have hproper : ∀ e ∈ [plain, double, late],
      Proper e.fields ∧ Value.find? e.fields "at_ms" = some (.number e.time) := by
    simp only [List.forall_mem_cons]
    exact ⟨⟨proper_resetAt (by decide +kernel), rfl⟩, ⟨proper_resetAt (by decide +kernel), rfl⟩,
      ⟨proper_resetAt (by decide +kernel), rfl⟩, nofun⟩
  have hapart : ∀ t, standsAt t late.value = true →
      standsAt t plain.value = false ∧ standsAt t double.value = false := by
    intro t hlate
    rw [standsAt_value rfl, Event.isAt_iff] at hlate
    have hbefore : ∀ e : Event, ¬late.time ≤ e.time → e.isAt t = false := by
      intro e hlt
      rw [← Bool.not_eq_true, Event.isAt_iff]
      exact fun h => hlt (Number.le_trans hlate.1 h.2)
    rw [standsAt_value rfl, standsAt_value rfl]
    exact ⟨hbefore plain (by decide +kernel), hbefore double (by decide +kernel)⟩
  have hstable : ∀ t, [plain.value, double.value, late.value].filter (standsAt t) =
        [late.value, plain.value, double.value].filter (standsAt t) ∧
      [plain.value, late.value, double.value].filter (standsAt t) =
        [late.value, plain.value, double.value].filter (standsAt t) := by
    intro t
    cases hlate : standsAt t late.value with
    | false => simp [List.filter_cons, hlate]
    | true => simp [hlate, hapart t hlate]
  have hperm : [plain.value, double.value, late.value].Perm
      [late.value, plain.value, double.value] := List.perm_append_singleton late.value [_, _]
  have harranged : Arranged [late.value, plain.value, double.value] [plain, double, late] :=
    ⟨hproper, hperm, by decide +kernel, fun t => (hstable t).1⟩
  obtain ⟨-, -, -, hlist⟩ :=
    reads_in_stable_order (.list [late.value, plain.value, double.value])
  obtain ⟨-, -, hdefinite⟩ := hlist _ rfl
  obtain ⟨hread, hsame, hagain⟩ := hdefinite harranged.definite
  have hfirst := (hread _).mpr harranged
  refine ⟨hfirst, ?_, hagain _ hfirst⟩
  rw [(hsame _ harranged.isScript (.swap _ _ _) fun t => (hstable t).2).1]
  exact hfirst

/-- Where a time is undefined, events stay as they stand if none is before the one in front of it.
-/
theorem read_of_chain (hread : readEvents 0 items = .ok events)
    (hundefined : ∃ e ∈ events, ¬e.isPlaced)
    (hchain : events.IsChain fun a b => before b a = false) : read (.list items) = .ok events := by
  have hall : ¬events.all Event.isPlaced := by simpa using hundefined
  refine read_list_eq_ok.mpr ⟨events, hread, ?_⟩
  rw [arrange, if_neg hall, Order.sort_of_chain hchain]

/-- An undefined time is taken, though it is not one from zero on; and a later event in front of it
stays in front of an earlier one behind it. -/
theorem takes_undefined_time :
    let undefined := resetAt (.double .undefined)
    let late := resetAt (.int 2)
    let early := resetAt (.int 1)
    read (.list [undefined.value]) = .ok [undefined] ∧ ¬Proper undefined.fields ∧
      read (.list [late.value, undefined.value, early.value]) = .ok [late, undefined, early] ∧
      early.time < late.time := by
  intro undefined late early
  have hundefined : ¬undefined.isPlaced := by decide +kernel
  refine ⟨?_, ?_, ?_, by decide +kernel⟩
  · exact read_of_chain rfl ⟨undefined, by simp, hundefined⟩ (.singleton _)
  · intro hproper
    exact hundefined (Event.isPlaced_iff.mpr ((proper_iff.mp hproper).2 _ rfl))
  · exact read_of_chain rfl ⟨undefined, by simp, hundefined⟩ (by decide +kernel)

end TunnelView.Script
