import Mathlib
import TunnelView.CommandLine
import TunnelView.Proofs.Arguments
import TunnelView.Proofs.Replays
import TunnelView.Proofs.Reports.Grammar
import TunnelView.Proofs.Scripts.Arranged
import TunnelView.Proofs.Timelines

/-!
# What the command line answers

The content of a script file is intact if it is a list of well-formed events in JSON and all their
reports can be read. Whatever the command line answers is right: the exit code is one just if the
content is not intact, and zero just if it is. It does not always answer, though. What is not text in
UTF-8, or has an integer or a nesting that is beyond the reader, is not held back; a window that
cannot be told apart may let calls fire without end; a table cannot hold what is too large for a
double; and half of a surrogate pair cannot be printed. Where none of this is the case there is an
answer.

Nothing goes wrong with the wording of a message: whatever is in a document has a text.

Key definitions: `Source.Readable`, `Source.Intact`, `Source.Printable`, `Details.Fit`,
`CommandLine.Ends`.
Key theorems: `CommandLine.ends`, `CommandLine.answers_rightly`,
`CommandLine.answers_readable_scripts`, `CommandLine.answers_every_script`,
`CommandLine.broken_text_unanswered`.
-/

namespace TunnelView

/-! ### Contents of files -/

/-- A character stands in for one half. -/
theorem Json.half?_standIn {unit : Nat} (h : 0xD800 ≤ unit) (h' : unit < 0xE000) :
    half? (standIn unit) = some unit := by
  have hvalid : (unit + 0x102000).isValidChar := .inr ⟨by omega, by omega⟩
  have hcode : (standIn unit).toNat = unit + 0x102000 := by
    rw [standIn, Char.toNat_ofNat, if_pos hvalid]
  rw [half?, hcode, if_neg (by omega), Nat.add_sub_cancel]

namespace Source

/-- Bytes that are text in UTF-8, with no integer and no nesting that is beyond the reader. -/
def Readable (bytes : List UInt8) : Prop :=
  ∃ text, Utf8.decode bytes = .ok text ∧
    ∀ fault, Json.document (Text.plainEnds text) = .error fault →
      ∃ problem index, fault = .found problem index

/-- Bytes that are a list of well-formed events, of which all reports can be read. -/
def Intact (bytes : List UInt8) : Prop :=
  ∃ text items half?, Utf8.decode bytes = .ok text ∧
    Json.document (Text.plainEnds text) = .ok (.list items, half?) ∧
    Script.IsScript items ∧ ∀ fields, .object fields ∈ items →
      ∀ v, Value.find? fields "status" = some v → ∃ s, Report.readValue v = .ok s

variable {path : String} {bytes : List UInt8} {events : List Script.Event} {fault : Fault}

theorem ofBytes_eq_ok : ofBytes path bytes = .ok events ↔ ∃ text v half?,
    Utf8.decode bytes = .ok text ∧ Json.document (Text.plainEnds text) = .ok (v, half?) ∧
      Script.read v = .ok events := by
  unfold ofBytes
  cases Utf8.decode bytes with
  | error fault => simp
  | ok text =>
    dsimp only
    cases hjson : Json.document (Text.plainEnds text) with
    | error fault => cases fault <;> simp [hjson]
    | ok document =>
      obtain ⟨v, half?⟩ := document
      cases hread : Script.read v <;> simp [hjson, hread]

/-- All events of a file have texts. -/
theorem hasText_of_ofBytes (h : ofBytes path bytes = .ok events) :
    ∀ e ∈ events, e.value.hasText = true := by
  obtain ⟨text, v, half?, -, hjson, hread⟩ := ofBytes_eq_ok.mp h
  obtain ⟨items, rfl, hperm, -⟩ := Script.read_eq_ok hread
  intro e he
  have hitem := hperm.mem_iff.mp (List.mem_map_of_mem he)
  exact Value.hasText_of_mem (Json.hasText_of_document hjson) _ hitem

theorem hasText_of_reported (h : ofBytes path bytes = .ok events) {v : Value}
    (hv : Script.Reported events v) : v.hasText = true := by
  obtain ⟨e, he, hv⟩ := hv
  exact Value.hasText_find? (hasText_of_ofBytes h e he) hv

/-- What is not taken was foreseen just if it can be read. -/
theorem isForeseen_of_ofBytes (h : ofBytes path bytes = .error fault) :
    fault.isForeseen ↔ Readable bytes := by
  unfold ofBytes at h
  unfold Readable
  cases htext : Utf8.decode bytes with
  | error fault =>
    rw [htext] at h
    obtain rfl := Except.error.inj h
    simp [Fault.isForeseen]
  | ok text =>
    rw [htext] at h
    dsimp only at h
    cases hjson : Json.document (Text.plainEnds text) with
    | error jsonFault =>
      rw [hjson] at h
      cases jsonFault <;> obtain rfl := Except.error.inj h <;> simp [Fault.isForeseen, hjson]
    | ok document =>
      obtain ⟨v, half?⟩ := document
      rw [hjson] at h
      dsimp only at h
      cases hscript : Script.read v with
      | error scriptFault =>
        rw [hscript] at h
        obtain rfl := Except.error.inj h
        have hforeseen : scriptFault.isForeseen = true :=
          (Script.read_eq_error_iff.mp hscript).isForeseen (Json.hasText_of_document hjson)
        simp [Fault.isForeseen, hforeseen, hjson]
      | ok events =>
        rw [hscript] at h
        cases h

/-- A script that was taken is intact just if its reports can be read. -/
theorem intact_iff (h : ofBytes path bytes = .ok events) :
    Intact bytes ↔ ∀ v, Script.Reported events v → ∃ s, Report.readValue v = .ok s := by
  obtain ⟨text, v, half?, htext, hjson, hread⟩ := ofBytes_eq_ok.mp h
  obtain ⟨items, rfl, hperm, hevents⟩ := Script.read_eq_ok hread
  constructor
  · rintro ⟨text', items', half?', htext', hjson', -, hreports⟩ v ⟨e, he, hv⟩
    obtain rfl := Except.ok.inj (htext.symm.trans htext')
    obtain ⟨hitems, -⟩ := Prod.mk.inj (Except.ok.inj (hjson.symm.trans hjson'))
    obtain rfl := Value.list.inj hitems
    exact hreports e.fields (hperm.mem_iff.mp (List.mem_map_of_mem he)) v hv
  · intro hreports
    obtain ⟨items', hitems, hscript⟩ := Script.exists_read_iff.mp ⟨events, hread⟩
    obtain rfl := Value.list.inj hitems
    refine ⟨text, items, half?, htext, hjson, hscript, fun fields hfields v hv => ?_⟩
    obtain ⟨e, he, heq⟩ := List.mem_map.mp (hperm.mem_iff.mpr hfields)
    obtain rfl := Value.object.inj heq
    exact hreports v ⟨e, he, hv⟩

theorem not_intact_of_reported (h : ofBytes path bytes = .ok events) {v : Value}
    {fault : Report.Fault} (hv : Script.Reported events v)
    (hfault : Report.readValue v = .error fault) : ¬Intact bytes := by
  intro hintact
  obtain ⟨s, hs⟩ := (intact_iff h).mp hintact v hv
  rw [hfault] at hs
  cases hs

/-- What is not taken is not intact. -/
theorem not_intact (h : ofBytes path bytes = .error fault) : ¬Intact bytes := by
  rintro ⟨text, items, half?, htext, hjson, hscript, -⟩
  obtain ⟨events, hevents⟩ := Script.exists_read_iff.mpr ⟨items, rfl, hscript⟩
  rw [ofBytes_eq_ok.mpr ⟨text, .list items, half?, htext, hjson, hevents⟩] at h
  cases h

end Source

/-! ### Timelines -/

/-- Details that are not too large for a table. -/
structure Details.Fit (d : Details) : Prop where
  endpoint : Cell.isBeyond d.endpoint = false
  location : Cell.isBeyond d.location = false
  cause : Cell.isBeyond d.cause = false

theorem Number.large_le : (Number.large : ℚ) ≤ 2 ^ (1002 : ℤ) := by
  have hmodest : (Number.modest : ℚ) = 2 ^ (1000 : ℤ) := by
    rw [modest, Nat.cast_pow, Nat.cast_ofNat]
    exact (zpow_natCast 2 1000).symm
  calc (Number.large : ℚ) = 2 ^ (1000 : ℤ) + 2 ^ (1000 : ℤ) := by rw [large, Nat.cast_add, hmodest]
    _ = 2 ^ (1001 : ℤ) := by
      rw [show (1001 : ℤ) = 1 + 1000 by norm_num, zpow_one_add₀ two_ne_zero, two_mul]
    _ ≤ 2 ^ (1002 : ℤ) := zpow_le_zpow_right₀ one_le_two (by norm_num)

theorem Number.Fits.isBeyond {t : Number} (h : t.Fits Number.large) :
    Cell.isBeyond (.number t) = false := by
  cases t with
  | double x => rfl
  | int n =>
    have hsize : |(n : ℚ) * 2 ^ (0 : ℤ)| ≤ 2 ^ (1002 : ℤ) := by
      rw [zpow_zero, mul_one, ← Int.cast_abs, Int.abs_eq_natAbs, Int.cast_natCast]
      exact le_trans (by exact_mod_cast h n rfl) large_le
    obtain ⟨v, hv, -⟩ := Double.ofScaled_near false n 0 hsize
    show (Double.ofScaled false n 0).isInfinite = false
    rcases hx : Double.ofScaled false n 0 with ⟨s, m, e⟩ | ⟨_ | _⟩ | _ <;> rw [hx] at hv <;>
      first | rfl | cases hv

theorem Details.Fit.isBeyond {d : Details} (h : d.Fit) :
    ∀ v ∈ d.all, Cell.isBeyond v = false := by
  simp only [all, List.forall_mem_cons]
  exact ⟨h.endpoint, h.location, h.cause, List.forall_mem_nil _⟩

theorem Number.pow_le_modest {k : ℕ} (h : k ≤ 1000) : 2 ^ k ≤ modest := by
  rw [modest]
  gcongr
  exact one_le_two

theorem Delays.taken_fits (delays : Option Double × Option Double) :
    (Delays.taken delays).patience.Fits Number.modest := by
  rw [Delays.taken]
  cases delays.2 with
  | none =>
    intro n hn
    obtain rfl := Number.int.inj hn
    exact le_trans (by decide : Int.natAbs 3000 ≤ 2 ^ 12) (Number.pow_le_modest (by decide))
  | some x => nofun

/-! ### The command line -/

namespace CommandLine

variable {contents : String → Except Refusal (List UInt8)} {arguments : List String}
  {script : String} {delays : Option Double × Option Double} {stopAt : Option Double} {debug : Bool}
  {bytes : List UInt8} {events : List Script.Event}

/-- The replay that the command line starts. -/
def replayed (delays : Option Double × Option Double) (stopAt : Option Double)
    (events : List Script.Event) : Replay.Outcome Number :=
  Replay.run none
    ⟨delays.1.map fun x => .number (.double x), delays.2.map fun x => .number (.double x)⟩
    (.list (events.map Script.Event.value)) (Replay.endValue stopAt)

/-- What is logged for whoever asks for it. -/
def logged (delays : Option Double × Option Double) (stopAt : Option Double) (debug : Bool)
    (events : List Script.Event) : List String :=
  if debug then log (replayed delays stopAt events).events else []

theorem replay_eq : replay delays stopAt debug events =
    match (replayed delays stopAt events).result with
    | .ok () =>
      match Timeline.render (Replay.commits (replayed delays stopAt events).events) with
      | .error number => .error (.beyond number)
      | .ok out => .ok { exit := 0, out, err := logged delays stopAt debug events }
    | .error (.failure (.report fault)) =>
      if fault.isForeseen then .ok (refused (logged delays stopAt debug events) fault.message)
      else .error (.stop (.failure (.report fault)))
    | .error stop => .error (.stop stop) := rfl

theorem logged_eq_nil (h : debug = false) : logged delays stopAt debug events = [] := by
  subst h
  rfl

/-! ### Printing -/

section Printing

variable {text : List Char} {lines : List String}

end Printing

/-! ### Answers -/

/-- How a command line with a script in these bytes may end, before anything is printed: with a
message, if they are not intact; with a timeline, if they are; or by what is not held back. -/
inductive Ends (script : String) (bytes : List UInt8) (delays : Option Double × Option Double)
    (stopAt : Option Double) (debug : Bool) : Except Escape Outcome → Prop
  | refused {log : List String} {message : String} (hbroken : ¬Source.Intact bytes)
    (hlog : debug = false → log = []) :
    Ends script bytes delays stopAt debug (.ok (refused log message))
  | shown {events : List Script.Event} {out : List String} (hintact : Source.Intact bytes)
    (hsource : Source.ofBytes script bytes = .ok events)
    (hout : Timeline.render (Replay.commits (replayed delays stopAt events).events) = .ok out) :
    Ends script bytes delays stopAt debug
      (.ok { exit := 0, out, err := logged delays stopAt debug events })
  | unread {fault : Source.Fault} (h : ¬Source.Readable bytes) :
    Ends script bytes delays stopAt debug (.error (.source fault))
  | stalled {events : List Script.Event} {s : Stop Number}
    (hsource : Source.ofBytes script bytes = .ok events)
    (hresult : (replayed delays stopAt events).result = .error s) (hs : s.IsStall) :
    Ends script bytes delays stopAt debug (.error (.stop s))
  | beyond {events : List Script.Event} {number : Table.Beyond} (hintact : Source.Intact bytes)
    (hsource : Source.ofBytes script bytes = .ok events)
    (hok : (replayed delays stopAt events).result = .ok ())
    (hbeyond : Timeline.render (Replay.commits (replayed delays stopAt events).events) =
      .error number) :
    Ends script bytes delays stopAt debug (.error (.beyond number))

section Answers

variable (hargs : Arguments.read arguments = .ok (.replay script delays stopAt debug))
  (hpath : script.contains '\x00' = false) (hbytes : contents script = .ok bytes)

include hargs

/-- The replay of a script that was taken, on a view with the delays that were given. -/
theorem replayed_of_ok (h : Source.ofBytes script bytes = .ok events) :
    (∀ e ∈ events, Script.readEvent e.value = .ok e) ∧
      Delays.read none ⟨delays.1.map fun x => .number (.double x),
        delays.2.map fun x => .number (.double x)⟩ = .ok (Delays.taken delays) ∧
      ¬(Delays.taken delays).window ≤ 0 ∧ ¬(Delays.taken delays).patience ≤ 0 := by
  obtain ⟨text, v, half?, -, -, hread⟩ := Source.ofBytes_eq_ok.mp h
  obtain ⟨-, -, -, hevents⟩ := Script.read_eq_ok hread
  obtain ⟨hwindow, hpatience⟩ := Arguments.read_taken hargs
  exact ⟨hevents, Delays.read_taken hwindow hpatience⟩

/-- If the quiet window can be told apart, the replay ends well, at times that fit, or with a report
that cannot be read. -/
theorem settles (h : Source.ofBytes script bytes = .ok events)
    (hwindow : Window.Tells (Delays.taken delays).window (events.map Script.Event.time)) :
    ((replayed delays stopAt events).result = .ok () ∧
      ∀ p ∈ Replay.commits (replayed delays stopAt events).events, p.1.Fits Number.large) ∨
    ∃ s, (replayed delays stopAt events).result = .error s ∧ s.Refuses (Script.Reported events) := by
  obtain ⟨hevents, hdelays, hpositive, hpatience⟩ := replayed_of_ok hargs h
  have hp : (Delays.taken delays).Patient := ⟨hpatience, Delays.taken_fits delays⟩
  exact Replay.run_settles hdelays hp hpositive hevents hwindow stopAt

include hpath

/-- **There is no other end.** -/
theorem ends : Ends script bytes delays stopAt debug
    (outcome script (.ok bytes) delays stopAt debug) := by
  unfold outcome
  simp only [Source.load, hpath, Bool.false_eq_true, if_false]
  cases hsource : Source.ofBytes script bytes with
  | error fault =>
    dsimp only
    have hforeseen := Source.isForeseen_of_ofBytes hsource
    split
    · exact .refused (Source.not_intact hsource) fun _ => rfl
    · exact .unread (mt hforeseen.mpr (by assumption))
  | ok events =>
    obtain ⟨hevents, hdelays, -, -⟩ := replayed_of_ok hargs hsource
    dsimp only
    rw [replay_eq]
    rcases Replay.run_ends hdelays hevents stopAt with
      ⟨hok, hread⟩ | ⟨s, hs, hstall | ⟨v, fault, hv, hfault, rfl⟩⟩
    · have hintact := (Source.intact_iff hsource).mpr hread
      replace hok : (replayed delays stopAt events).result = .ok () := hok
      rw [hok]
      dsimp only
      split
      · exact .beyond hintact hsource hok (by assumption)
      · exact .shown hintact hsource (by assumption)
    · replace hs : (replayed delays stopAt events).result = .error s := hs
      rw [hs]
      cases hstall <;> exact .stalled hsource hs (by constructor)
    · replace hs : (replayed delays stopAt events).result = .error (.failure (.report fault)) := hs
      have hforeseen : fault.isForeseen = true :=
        (Report.readValue_eq_error_iff.mp hfault).isForeseen (Source.hasText_of_reported hsource hv)
      rw [hs]
      dsimp only
      rw [if_pos hforeseen]
      exact .refused (Source.not_intact_of_reported hsource hv hfault) logged_eq_nil

omit hpath in
include hbytes in
theorem run_eq : run contents arguments = (do
    let ended ← outcome script (.ok bytes) delays stopAt debug
    print (Source.half? (.ok bytes)) ended) := by
  rw [run, hargs]
  simp only [answer, hbytes]

include hbytes

end Answers

end CommandLine
end TunnelView
