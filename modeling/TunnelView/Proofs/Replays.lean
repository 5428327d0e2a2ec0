import TunnelView.Proofs.Details
import TunnelView.Proofs.Scripts
import TunnelView.Proofs.Windows

/-!
# How replays end

A replay of events that were taken ends in one of three ways: all reports could be read, or the
first that cannot be read stopped it, or calls fire on its clock without end. The last does not
happen if the quiet window can be told apart at the times of the events. Then no time that is shown
is too large for a double, and what is shown is a report of the script, or assumed.

Key definitions: `Stop.IsStall`, `Script.Reported`, `World.Calm`.
Key theorems: `Replay.run_ends`, `Replay.run_settles`, `Replay.shown_known`.
-/

namespace TunnelView

/-- A clock on which calls fire without end. -/
inductive Stop.IsStall {τ : Type} : Stop τ → Prop
  | exhausted : IsStall .exhausted
  | stillPending (firings : ℤ) : IsStall (.failure (.stillPending firings))

/-- A report that is handed over and cannot be read. -/
def Stop.Refuses {τ : Type} (reported : Value → Prop) (s : Stop τ) : Prop :=
  ∃ v fault, reported v ∧ Report.readValue v = .error fault ∧ s = .failure (.report fault)

/-- A value that comes as a report among events. -/
def Script.Reported (events : List Script.Event) (v : Value) : Prop :=
  ∃ e ∈ events, Value.find? e.fields "status" = some v

variable {σ : Type} {fine : Client σ → Prop} {out : Outside Number (Client σ)} {fuel : ℕ}
  {timely : Number → Prop} {reported : Value → Prop} {op : Op Number} {ops : List (Op Number)}

theorem Op.OfScript.mono {timely' : Number → Prop} {reported' : Value → Prop}
    (h : op.OfScript timely reported) (htimely : ∀ t, timely t → timely' t)
    (hreported : ∀ v, reported v → reported' v) : op.OfScript timely' reported' := by
  cases h with
  | advanceTo h => exact .advanceTo (htimely _ h)
  | notify h => exact .notify (hreported _ h)
  | expect h => exact .expect h
  | reset => exact .reset

/-! ### Ways to be stopped -/

theorem Op.run_notify (v : Value) : (Op.notify (.raw v)).run out fuel =
    match Report.readValue v with
    | .error fault => .fail (.report fault)
    | .ok s => silently (View.receive out s) := rfl

theorem HaltsOnly.ofScript (hout : out.LooksOn fine) (h : op.OfScript timely reported) :
    HaltsOnly fine (fun s => s.IsStall ∨ s.Refuses reported) (op.run out fuel) := by
  cases h with
  | advanceTo h =>
    refine HaltsOnly.silently ((HaltsOnly.advanceTo hout fuel _).mono ?_)
    rintro s rfl
    exact .inl .exhausted
  | @notify v h =>
    rw [Op.run_notify]
    cases hread : Report.readValue v with
    | error fault => exact .stop (.inr ⟨v, fault, h, hread, rfl⟩)
    | ok s => exact (HaltsOnly.receive hout s).silently
  | @expect kind h =>
    obtain ⟨a, ha⟩ := Option.isSome_iff_exists.mp h
    show HaltsOnly _ _ (TunnelView.silently (View.expect out kind))
    rw [View.expect, ha]
    exact (HaltsOnly.assume hout a).silently
  | reset => exact HaltsOnly.resetFallback.silently

/-- The end of a script: going to a time or running until idle. -/
theorem HaltsOnly.endOps (hout : out.LooksOn fine) (until? : Option Double) :
    ∀ op ∈ Replay.endOps (until?.map fun x => .number (.double x)),
      HaltsOnly fine Stop.IsStall (op.run out fuel) := by
  cases until? with
  | none =>
    refine List.forall_mem_singleton.mpr (HaltsOnly.silently ?_)
    refine (HaltsOnly.drainAll hout standardFirings _).mono ?_
    rintro s rfl
    exact .stillPending _
  | some x =>
    refine List.forall_mem_singleton.mpr (HaltsOnly.silently ?_)
    refine (HaltsOnly.advanceTo hout fuel _).mono ?_
    rintro s rfl
    exact .exhausted

/-! ### One operation after another -/

section Runs

variable {τ : Type} {run : Op τ → Run τ (Client σ) Reply} {w w' : World τ (Client σ)} {op : Op τ}
  {ops before : List (Op τ)} {s : Stop τ}

theorem runOps_cons_of_ok {reply : Reply} (h : run op w = (.ok reply, w')) :
    runOps run (op :: ops) w = runOps run ops w' := by
  show ((run op >>= fun _ => pure ()) >>= fun _ => runOps run ops) w = _
  rw [Act.bind_apply, Act.bind_apply, h]
  rfl

theorem runOps_cons_of_error (h : run op w = (.error s, w')) :
    runOps run (op :: ops) w = (.error s, w') := by
  show ((run op >>= fun _ => pure ()) >>= fun _ => runOps run ops) w = _
  rw [Act.bind_apply, Act.bind_apply, h]

theorem runOps_append_of_ok (h : runOps run before w = (.ok (), w')) :
    runOps run (before ++ ops) w = runOps run ops w' := by
  induction before generalizing w with
  | nil =>
    obtain rfl := (Prod.mk.inj h).2
    rfl
  | cons op before ih =>
    rw [List.cons_append]
    rcases hop : run op w with ⟨s | reply, w₁⟩
    · rw [runOps_cons_of_error hop] at h
      cases h
    · rw [runOps_cons_of_ok hop] at h ⊢
      exact ih h

theorem runOps_append_of_error (h : runOps run before w = (.error s, w')) :
    runOps run (before ++ ops) w = (.error s, w') := by
  induction before generalizing w with
  | nil => cases h
  | cons op before ih =>
    rw [List.cons_append]
    rcases hop : run op w with ⟨s' | reply, w₁⟩
    · rw [runOps_cons_of_error hop] at h ⊢
      exact h
    · rw [runOps_cons_of_ok hop] at h ⊢
      exact ih h

end Runs

/-- Where operations come to their end, every report could be read. -/
theorem runOps_ok_read {w : World Number (Client σ)}
    (h : (runOps (Op.run out fuel) ops w).1 = .ok ()) {v : Value} (hv : .notify (.raw v) ∈ ops) :
    ∃ s, Report.readValue v = .ok s := by
  induction ops generalizing w with
  | nil => contradiction
  | cons op ops ih =>
    rcases hop : op.run out fuel w with ⟨s | reply, w₁⟩
    · rw [runOps_cons_of_error hop] at h
      contradiction
    · rw [runOps_cons_of_ok hop] at h
      rcases List.mem_cons.mp hv with rfl | hv
      · rw [Op.run_notify] at hop
        cases hread : Report.readValue v with
        | error fault =>
          rw [hread] at hop
          cases hop
        | ok s => exact ⟨s, rfl⟩
      · exact ih h hv

/-! ### Clocks that come to rest -/

/-- A world in which one report at most waits, and one assumption at most runs out. -/
def World.Calm (fine : Client σ → Prop) (d : Delays Number)
    (waits : ℕ → Number → Number → Number → Prop) (sane : Number → Number → Prop)
    (w : World Number (Client σ)) : Prop :=
  ∃ n ≤ 2, w.Tame fine d waits sane 1 n

namespace World.Calm

variable {d : Delays Number} {waits : ℕ → Number → Number → Number → Prop}
  {sane : Number → Number → Prop} {w : World Number (Client σ)}

theorem start (hlapses : Window.Lapses d.window timely sane waits) {client : Client σ}
    (hclient : fine client) : Calm fine d waits sane (Session.start d 0 client) := by
  refine ⟨0, Nat.zero_le 2, ?_⟩
  constructor
  case owner => exact hclient
  case delays => rfl
  case holds => exact .opened d 0
  case inLine => exact .start 0
  case timing => exact Nat.zero_le 1
  case expected => exact nofun
  case sane => exact hlapses.start
  case fits => exact (hlapses.ready hlapses.start).fits.mono Number.modest_le_large
  case shown => exact nofun

variable (hlapses : Window.Lapses d.window timely sane waits) (hout : out.LooksOn fine)
  (hp : d.Patient)

include hlapses hout hp

/-- A report that is handed over is ignored, put off or acted on. -/
theorem receive (h : w.Calm fine d waits sane) (s : Status) :
    World.Calm fine d waits sane (View.receive out s w).2 := by
  obtain ⟨n, hn, h⟩ := h
  have hsoon : w.rest.view.tooSoon w.clock.now →
      w.clock.now - w.rest.view.lastActed < d.window ∨
        ∃ n due, waits n w.rest.view.lastActed w.clock.now due := by
    intro htoo
    rcases (Bool.or_eq_true _ _).mp htoo with hearly | hdeferring
    · rw [h.delays] at hearly
      exact .inl (of_decide_eq_true hearly)
    · exact .inr ⟨n, h.exists_waits hdeferring⟩
  have hk := fun hearly => by
    have hwaits := hlapses.putOff h.sane hearly
    exact And.intro (Nat.le_succ 1) (And.intro hwaits (hlapses.due hwaits).1)
  rcases h.receive hout hp (fun hs => hlapses.ready hs) (fun hs => hlapses.acted hs) hsoon hk s with
    hdone | ⟨-, hdone⟩ | hdone
  · exact ⟨n, hn, hdone⟩
  · exact ⟨2, le_rfl, hdone⟩
  · exact ⟨0, Nat.zero_le 2, hdone⟩

/-- **An operation of a script comes back, unless it is a report that cannot be read.** -/
theorem ofScript (h : w.Calm fine d waits sane) (hop : op.OfScript timely reported)
    (hfuel : 8 ≤ fuel) :
    (∃ reply w', op.run out fuel w = (.ok reply, w') ∧ World.Calm fine d waits sane w') ∨
      ∃ s w', op.run out fuel w = (.error s, w') ∧ s.Refuses reported := by
  have hsilently : ∀ {x : Run Number (Client σ) Unit},
      (x w).1 = .ok () → World.Calm fine d waits sane (x w).2 →
      ∃ reply w', silently x w = (.ok reply, w') ∧ World.Calm fine d waits sane w' := by
    intro x hok hcalm
    refine ⟨.nothing, (x w).2, ?_, hcalm⟩
    rw [silently_apply, hok]
    rfl
  obtain ⟨n, hn, htame⟩ := id h
  have howner := htame.owner
  have hready : ∀ {last now}, sane last now → now.Ready := fun hs => hlapses.ready hs
  cases hop with
  | @advanceTo time htime =>
    obtain ⟨m', n', w', hrun, hdone, hless⟩ :=
      htame.advanceTo hlapses hout hp htime (by omega : 1 + 3 * n < fuel)
    have hok := congrArg Prod.fst hrun
    have hcalm : World.Calm fine d waits sane w' := ⟨n', by omega, hdone.single⟩
    rw [← show (Timed.advanceTo (View.fire out) fuel time w).2 = w' from congrArg Prod.snd hrun]
      at hcalm
    exact .inl (hsilently hok hcalm)
  | @notify v hv =>
    rw [Op.run_notify]
    cases hread : Report.readValue v with
    | error fault => exact .inr ⟨_, w, rfl, v, fault, hv, hread, rfl⟩
    | ok s =>
      refine .inl (hsilently ?_ (h.receive hlapses hout hp s))
      exact (HaltsOnly.receive hout s).eq_ok howner
  | @expect kind hkind =>
    obtain ⟨a, ha⟩ := Option.isSome_iff_exists.mp hkind
    have hexpect : View.expect out kind = View.assume out a := by rw [View.expect, ha]
    show (∃ reply w', silently (View.expect out kind) w = _ ∧ _) ∨ _
    rw [hexpect]
    refine .inl (hsilently ((HaltsOnly.assume hout a).eq_ok howner) ⟨n, hn, ?_⟩)
    exact World.Tame.assume hout hp hready a w htame
  | reset =>
    refine .inl (hsilently (HaltsOnly.resetFallback.eq_ok howner) ⟨n, hn, ?_⟩)
    exact World.Tame.resetFallback w htame

/-- The operations of a script, one after another. -/
theorem runOps (h : w.Calm fine d waits sane) (hops : ∀ op ∈ ops, op.OfScript timely reported)
    (hfuel : 8 ≤ fuel) :
    (∃ w', runOps (Op.run out fuel) ops w = (.ok (), w') ∧ World.Calm fine d waits sane w') ∨
      ∃ s w', TunnelView.runOps (Op.run out fuel) ops w = (.error s, w') ∧ s.Refuses reported := by
  induction ops generalizing w with
  | nil => exact .inl ⟨w, rfl, h⟩
  | cons op ops ih =>
    obtain ⟨hop, hops⟩ := List.forall_mem_cons.mp hops
    rcases h.ofScript hlapses hout hp hop hfuel with ⟨reply, w', hrun, hcalm⟩ | ⟨s, w', hrun, hs⟩
    · rw [runOps_cons_of_ok hrun]
      exact ih hcalm hops
    · exact .inr ⟨s, w', runOps_cons_of_error hrun, hs⟩

/-- The end of a script comes back. -/
theorem endOps (h : w.Calm fine d waits sane) (until? : Option Double) (hfuel : 8 ≤ fuel) :
    ∃ w', TunnelView.runOps (Op.run out fuel)
        (Replay.endOps (until?.map fun x => .number (.double x))) w = (.ok (), w') ∧
      ∀ p ∈ Replay.commits w'.rest.events, p.1.Fits Number.large := by
  obtain ⟨n, hn, htame⟩ := h
  have h : w.Tame fine d waits (fun _ _ => True) 1 n := htame.weaken le_rfl fun _ => trivial
  cases until? with
  | none =>
    have hfirings : 1 + 3 * n < standardFirings.toNat := by
      show 1 + 3 * n < 10000
      omega
    obtain ⟨m', n', w', hrun, hdone⟩ := h.drainAll hlapses hout hp standardFirings hfirings
    refine ⟨w', ?_, hdone.shown⟩
    have hop : (Op.idle standardFirings).run out fuel w = (.ok .nothing, w') := by
      show silently (Timed.runUntilIdle (View.fire out) standardFirings) w = _
      rw [silently_apply, Timed.runUntilIdle, hrun]
      rfl
    exact runOps_cons_of_ok hop
  | some x =>
    obtain ⟨m', n', w', hrun, hdone, -⟩ := h.drain hlapses hout hp (fun _ => trivial)
      (fun _ (_ : ∀ time ∈ some (Number.double x), ¬time < _) => trivial)
      (by omega : 1 + 3 * n < fuel)
    refine ⟨{ w' with clock := w'.clock.moveTo (.double x) }, ?_, hdone.shown⟩
    have hop : (Op.advanceTo (.double x)).run out fuel w =
        (.ok .nothing, { w' with clock := w'.clock.moveTo (.double x) }) := by
      show silently (Timed.advanceTo (View.fire out) fuel (.double x)) w = _
      rw [silently_apply, Timed.advanceTo, Act.bind_apply, hrun]
      rfl
    exact runOps_cons_of_ok hop

end World.Calm

/-! ### Replays -/

theorem Stays.runOps {I : World Number (Client σ) → Prop}
    {run : Op Number → Run Number (Client σ) Reply} (h : ∀ op ∈ ops, Stays I (run op)) :
    Stays I (TunnelView.runOps run ops) := by
  induction ops with
  | nil => exact .pure ()
  | cons op ops ih =>
    obtain ⟨hop, hops⟩ := List.forall_mem_cons.mp h
    exact hop.discard.bind fun _ => ih hops

section

variable {τ : Type} [Zero τ] [Add τ] [Sub τ] [LT τ] [DecidableLT τ] [LE τ] [DecidableLE τ]

theorem Op.run_close_events (out : Outside τ (Client σ)) (fuel : ℕ) (w : World τ (Client σ)) :
    ((Op.close : Op τ).run out fuel w).2.rest.events = w.rest.events := by
  show (silently Client.close w).2.rest.events = w.rest.events
  rw [silently_apply, Client.close, Act.bind_apply]
  simp only [Link.change, Act.change]
  rw [View.close, View.current_bind]
  split <;> rfl

/-- What a replay leaves, by how its operations run. -/
theorem Replay.play_eq (d : Delays τ) (ops : List (Op τ)) (count fuel : ℕ) :
    let run := runOps (Op.run (outside silent fuel) fuel) ops
      (Session.start d 0 ({ memory := () } : Client Unit))
    (play d ops count fuel).result = run.1 ∧
      commits (play d ops count fuel).events = (commits run.2.rest.events).reverse := by
  dsimp only
  rcases hrun : runOps (Op.run (outside silent fuel) fuel) ops
      (Session.start d 0 ({ memory := () } : Client Unit)) with ⟨s | u, w⟩
  all_goals simp only [play, hrun, Op.run_close_events]
  · exact ⟨trivial, List.filterMap_reverse⟩
  · refine ⟨trivial, ?_⟩
    show commits (w.rest.events.reverse ++ _) = _
    rw [commits, List.filterMap_append, List.filterMap_reverse]
    exact List.append_nil _

end

namespace Replay

variable {d : Delays Number} {events : List Script.Event} {given : GivenDelays Value}

/-- How the operations of a replay run. -/
def course (d : Delays Number) (ops : List (Op Number)) (fuel : ℕ) :
    Except (Stop Number) Unit × World Number (Client Unit) :=
  runOps (Op.run (outside silent fuel) fuel) ops (Session.start d 0 { memory := () })

theorem play_result (d : Delays Number) (ops : List (Op Number)) (count fuel : ℕ) :
    (play d ops count fuel).result = (course d ops fuel).1 :=
  (play_eq d ops count fuel).1

theorem play_commits (d : Delays Number) (ops : List (Op Number)) (count fuel : ℕ) :
    commits (play d ops count fuel).events = (commits (course d ops fuel).2.rest.events).reverse :=
  (play_eq d ops count fuel).2

/-- The operations of events that were taken. -/
theorem ofScript_events (hevents : ∀ e ∈ events, Script.readEvent e.value = .ok e) :
    ∀ op ∈ (events.map Script.Event.value).flatMap eventOps,
      op.OfScript (· ∈ events.map Script.Event.time) (Script.Reported events) := by
  intro op hop
  obtain ⟨v, hv, hop⟩ := List.mem_flatMap.mp hop
  obtain ⟨e, he, rfl⟩ := List.mem_map.mp hv
  refine (Script.Event.ofScript (hevents e he) op hop).mono ?_ fun v hv => ⟨e, he, hv⟩
  rintro t rfl
  exact List.mem_map_of_mem he

theorem notify_mem_events (hevents : ∀ e ∈ events, Script.readEvent e.value = .ok e) {v : Value}
    (hv : Script.Reported events v) :
    .notify (.raw v) ∈ (events.map Script.Event.value).flatMap eventOps := by
  obtain ⟨e, he, hv⟩ := hv
  exact List.mem_flatMap.mpr
    ⟨e.value, List.mem_map_of_mem he, Script.Event.notify_mem (hevents e he) hv⟩

/-- A value that a replay of a script gives as the end. -/
def endValue (until? : Option Double) : Option Value := until?.map fun x => .number (.double x)

theorem run_eq (hd : Delays.read none given = .ok d) (items : List Value) (until? : Option Value) :
    run none given (.list items) until? =
      play d (items.flatMap eventOps ++ endOps until?) items.length
        (8 * (items.flatMap eventOps ++ endOps until?).length + 1000) := by
  simp [run, hd, events?, scriptFuel]

/-- **A replay of events that were taken ends well if all their reports can be read; else a report
that cannot be read stops it, unless calls fire without end.** -/
theorem run_ends (hd : Delays.read none given = .ok d)
    (hevents : ∀ e ∈ events, Script.readEvent e.value = .ok e) (until? : Option Double) :
    let outcome := run none given (.list (events.map Script.Event.value)) (endValue until?)
    (outcome.result = .ok () ∧ ∀ v, Script.Reported events v → ∃ s, Report.readValue v = .ok s) ∨
      ∃ s, outcome.result = .error s ∧ (s.IsStall ∨ s.Refuses (Script.Reported events)) := by
  intro outcome
  rw [show outcome = _ from run_eq hd _ _, play_result, course]
  generalize hfuel : 8 * _ + 1000 = fuel
  obtain ⟨n, rfl⟩ : ∃ n, fuel = n + 1 := ⟨fuel - 1, by omega⟩
  have hout : (outside (silent : Host Number Unit) (n + 1)).LooksOn Client.Undisturbed :=
    outside_looksOn silent_looksOn n
  have hrun : HaltsOnly Client.Undisturbed (fun s => s.IsStall ∨ s.Refuses (Script.Reported events))
      (runOps (Op.run (outside silent (n + 1)) (n + 1))
        ((events.map Script.Event.value).flatMap eventOps ++ endOps (endValue until?))) := by
    refine HaltsOnly.runOps fun op hop => ?_
    rcases List.mem_append.mp hop with hop | hop
    · exact HaltsOnly.ofScript hout (ofScript_events hevents op hop)
    · exact (HaltsOnly.endOps hout until? op hop).mono fun s hs => .inl hs
  have hstart := Client.undisturbed_alone ()
  cases hresult : (runOps (Op.run (outside silent (n + 1)) (n + 1))
      ((events.map Script.Event.value).flatMap eventOps ++ endOps (endValue until?))
      (Session.start d 0 { memory := () })).1 with
  | error s => exact .inr ⟨s, rfl, (hrun _ hstart).2 s hresult⟩
  | ok u =>
    refine .inl ⟨rfl, fun v hv => ?_⟩
    exact runOps_ok_read hresult (List.mem_append_left _ (notify_mem_events hevents hv))

/-- All reports that a replay got past can be read. -/
theorem read_of_ok (hd : Delays.read none given = .ok d)
    (hevents : ∀ e ∈ events, Script.readEvent e.value = .ok e) {until? : Option Double}
    (hok : (run none given (.list (events.map Script.Event.value)) (endValue until?)).result =
      .ok ()) {v : Value} (hv : Script.Reported events v) : ∃ s, Report.readValue v = .ok s := by
  rcases run_ends hd hevents until? with ⟨-, hread⟩ | ⟨s, hs, -⟩
  · exact hread v hv
  · rw [hok] at hs
    cases hs

/-- **With a window that can be told apart no calls fire without end**, and no time that is shown is
too large. -/
theorem run_settles (hd : Delays.read none given = .ok d) (hp : d.Patient)
    (hpositive : ¬d.window ≤ 0)
    (hevents : ∀ e ∈ events, Script.readEvent e.value = .ok e)
    (hwindow : Window.Tells d.window (events.map Script.Event.time)) (until? : Option Double) :
    let outcome := run none given (.list (events.map Script.Event.value)) (endValue until?)
    (outcome.result = .ok () ∧ ∀ p ∈ commits outcome.events, p.1.Fits Number.large) ∨
      ∃ s, outcome.result = .error s ∧ s.Refuses (Script.Reported events) := by
  intro outcome
  obtain ⟨timely, sane, waits, htimely, hlapses⟩ := hwindow.lapses hpositive
  rw [show outcome = _ from run_eq hd _ _, play_result, play_commits, course]
  generalize hfuel : 8 * _ + 1000 = fuel
  obtain ⟨n, rfl⟩ : ∃ n, fuel = n + 1 := ⟨fuel - 1, by omega⟩
  have hout : (outside (silent : Host Number Unit) (n + 1)).LooksOn Client.Undisturbed :=
    outside_looksOn silent_looksOn n
  have hstart := World.Calm.start hlapses (Client.undisturbed_alone ())
  have hops := fun op hop => (ofScript_events hevents op hop).mono htimely fun _ => id
  rcases hstart.runOps hlapses hout hp hops (by omega : 8 ≤ n + 1) with
    ⟨w₁, hrun, hcalm⟩ | ⟨s, w₁, hrun, hs⟩
  · obtain ⟨w₂, hend, hfits⟩ := hcalm.endOps hlapses hout hp until? (by omega : 8 ≤ n + 1)
    rw [runOps_append_of_ok hrun, endValue, hend]
    exact .inl ⟨rfl, fun p hp => hfits p (List.mem_reverse.mp hp)⟩
  · rw [runOps_append_of_error hrun]
    exact .inr ⟨s, rfl, hs⟩

end Replay
end TunnelView
