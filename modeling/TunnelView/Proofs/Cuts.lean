import Mathlib.Data.List.Forall2
import TunnelView.Proofs.Fuel

/-!
# How a stretch of time is cut makes no difference

To go to a time in two movements is the same as to go there in one: the same calls fire, in the same
order and each in the same world, and the world at the end is the same down to the heap of the clock.
What the calls do plays no part in this; they may arm and let go of calls and move the clock
themselves. The reason is that the first movement ends where the next deadline is past its time, so
the firing of that deadline sets the clock as if the stop had not been.

In a session every movement to a time can so be cut into movements on the way, or left out of one,
and everything that is ever shown, when it is shown, and the world at the end stay as they are. A
host may call back and fail as it likes, but must not interrupt: an interrupt ends one movement, and
the next one would go on.

Key definitions: `Timed.Journey`, `Op.CutInto`, `Session.EndsIn`, `Session.Leads`.
Key theorems: `Timed.journey_iff`, `Timed.journey_cut`, `Session.leads_append`,
`Session.cuts_make_no_difference`.
-/

namespace TunnelView

variable {τ κ ω σ : Type}

/-! ### The clock -/

section Clock

variable [LinearOrder τ] {c clock : Clock τ κ} {t : Timer τ κ} {early late : τ}

/-- What is due by an earlier time is due by a later one. -/
theorem Clock.popDue_of_le (h : early ≤ late) (hpop : c.popDue (some early) = (some t, clock)) :
    c.popDue (some late) = (some t, clock) := by
  simp only [Clock.popDue] at hpop ⊢
  cases hfirst : c.tidied.first? with
  | none =>
    rw [hfirst] at hpop
    cases hpop
  | some u =>
    simp only [hfirst, Option.any_some, decide_eq_true_eq] at hpop ⊢
    by_cases hearly : early < u.deadline
    · rw [if_pos hearly] at hpop
      cases hpop
    · have hlate : ¬late < u.deadline := by
        intro hlt
        exact hearly (lt_of_le_of_lt h hlt)
      rw [if_neg hearly] at hpop
      rw [if_neg hlate]
      exact hpop

/-- With nothing due by a time, to have gone there is not seen by what falls due later on. -/
theorem Clock.popDue_moveTo_some (hnone : c.popDue (some early) = (none, c.tidied)) :
    (c.tidied.moveTo early).popDue (some late) = (some t, clock) ↔
      c.popDue (some late) = (some t, clock) := by
  have hmoved : (c.tidied.moveTo early).tidied = c.tidied.moveTo early :=
    congrArg (Clock.moveTo early) (Clock.tidied_tidied c)
  simp only [Clock.popDue, hmoved] at hnone ⊢
  have hfirst : (c.tidied.moveTo early).first? = c.tidied.first? := rfl
  rw [hfirst]
  cases hu : c.tidied.first? with
  | none => simp
  | some u =>
    simp only [hu, Option.any_some, decide_eq_true_eq] at hnone ⊢
    have hpast : early < u.deadline := by
      by_contra hle
      rw [if_neg hle] at hnone
      cases hnone
    have hnow : later (later c.now early) u.deadline = later c.now u.deadline := by
      simp only [later_eq_max]
      rw [max_assoc, max_eq_right (le_of_lt hpast)]
    have hfired : (c.tidied.moveTo early).fired u = c.tidied.fired u :=
      congrArg (fun now => { c.tidied.fired u with now }) hnow
    rw [hfired]
    by_cases hlate : late < u.deadline
    · simp [hlate]
    · rw [if_neg hlate, if_neg hlate]

/-- Going on from where nothing more is due ends where going there at once does. -/
theorem Clock.moveTo_moveTo (h : early ≤ late) (c : Clock τ κ) :
    (c.moveTo early).moveTo late = c.moveTo late := by
  have hnow : later (later c.now early) late = later c.now late := by
    simp only [later_eq_max]
    rw [max_assoc, max_eq_right h]
  exact congrArg (fun now => { c with now }) hnow

end Clock

/-! ### Journeys -/

section Journeys

variable [LinearOrder τ]

/-- The way from a world to a time: the calls that fire, each with the world that it finds, and the
world at the end. It is there only if every call comes back. -/
inductive Timed.Journey (fire : Timed.Fire (Clock τ κ) ω τ κ) (time : τ) : Timed (Clock τ κ) ω →
    List (Timer τ κ × Timed (Clock τ κ) ω) → Timed (Clock τ κ) ω → Prop
  | arrive {w} : w.clock.popDue (some time) = (none, w.clock.tidied) →
    Journey fire time w [] { w with clock := w.clock.tidied.moveTo time }
  | call {w w₁ w' t clock calls} : w.clock.popDue (some time) = (some t, clock) →
    fire t { w with clock } = (.ok (), w₁) → Journey fire time w₁ calls w' →
    Journey fire time w ((t, { w with clock }) :: calls) w'

variable {fire : Timed.Fire (Clock τ κ) ω τ κ} {early late time : τ}
  {w w₁ w₂ w' : Timed (Clock τ κ) ω} {calls before after : List (Timer τ κ × Timed (Clock τ κ) ω)}

/-- There is only one way to a time. -/
theorem Timed.Journey.unique (h : Timed.Journey fire time w before w₁)
    (h' : Timed.Journey fire time w after w₂) : before = after ∧ w₁ = w₂ := by
  induction h generalizing after with
  | arrive hpop =>
    cases h' with
    | arrive _ => exact ⟨rfl, rfl⟩
    | call hpop' _ _ => cases hpop.symm.trans hpop'
  | call hpop hfire _ ih =>
    cases h' with
    | arrive hpop' => cases hpop.symm.trans hpop'
    | call hpop' hfire' hrest =>
      obtain ⟨ht, rfl⟩ := Prod.mk.inj (hpop.symm.trans hpop')
      obtain rfl := Option.some.inj ht
      obtain rfl := (Prod.mk.inj (hfire.symm.trans hfire')).2
      obtain ⟨rfl, rfl⟩ := ih hrest
      exact ⟨rfl, rfl⟩

/-- From where nothing more is due by an earlier time, the way to a later one is the same whether or
not the clock went to the earlier one. -/
theorem Timed.journey_moveTo (h : early ≤ late)
    (hpop : w.clock.popDue (some early) = (none, w.clock.tidied)) :
    Timed.Journey fire late { w with clock := w.clock.tidied.moveTo early } calls w' ↔
      Timed.Journey fire late w calls w' := by
  have hmoved : (w.clock.tidied.moveTo early).tidied = w.clock.tidied.moveTo early :=
    congrArg (Clock.moveTo early) (Clock.tidied_tidied w.clock)
  have hnone : ∀ {clock}, w.clock.popDue (some late) = (none, clock) →
      (w.clock.tidied.moveTo early).popDue (some late) =
        (none, (w.clock.tidied.moveTo early).tidied) := by
    intro clock hlate
    rcases hpop' : (w.clock.tidied.moveTo early).popDue (some late) with ⟨_ | t, clock'⟩
    · rw [Clock.popDue_of_none hpop']
    · rw [(Clock.popDue_moveTo_some hpop).mp hpop'] at hlate
      cases hlate
  have harrive : { w with clock := (w.clock.tidied.moveTo early).tidied.moveTo late } =
      { w with clock := w.clock.tidied.moveTo late } := by
    rw [hmoved, Clock.moveTo_moveTo h]
  constructor
  · intro hjourney
    rcases hlate : w.clock.popDue (some late) with ⟨_ | t, clock⟩
    · obtain rfl := Clock.popDue_of_none hlate
      obtain ⟨rfl, rfl⟩ := hjourney.unique (.arrive (hnone hlate))
      exact harrive ▸ .arrive hlate
    · cases hjourney with
      | arrive hpop' =>
        rw [(Clock.popDue_moveTo_some hpop).mpr hlate] at hpop'
        cases hpop'
      | call hpop' hfire hrest => exact .call ((Clock.popDue_moveTo_some hpop).mp hpop') hfire hrest
  · intro hjourney
    cases hjourney with
    | arrive hlate => exact harrive ▸ .arrive (hnone hlate)
    | call hlate hfire hrest => exact .call ((Clock.popDue_moveTo_some hpop).mpr hlate) hfire hrest

/-- **A journey can be cut anywhere**, by induction on the calls before the cut. -/
theorem Timed.journey_cut (h : early ≤ late) : Timed.Journey fire late w calls w' ↔
    ∃ before after w₁, calls = before ++ after ∧ Timed.Journey fire early w before w₁ ∧
      Timed.Journey fire late w₁ after w' := by
  constructor
  · intro hjourney
    induction hjourney with
    | @arrive w hpop =>
      rcases hearly : w.clock.popDue (some early) with ⟨_ | t, clock⟩
      · obtain rfl := Clock.popDue_of_none hearly
        exact ⟨[], [], _, rfl, .arrive hearly, (Timed.journey_moveTo h hearly).mpr (.arrive hpop)⟩
      · rw [Clock.popDue_of_le h hearly] at hpop
        cases hpop
    | @call w w₁ w' t clock calls hpop hfire hrest ih =>
      rcases hearly : w.clock.popDue (some early) with ⟨_ | u, clock'⟩
      · obtain rfl := Clock.popDue_of_none hearly
        exact ⟨[], _, _, rfl, .arrive hearly,
          (Timed.journey_moveTo h hearly).mpr (.call hpop hfire hrest)⟩
      · obtain ⟨hu, rfl⟩ := Prod.mk.inj ((Clock.popDue_of_le h hearly).symm.trans hpop)
        obtain rfl := Option.some.inj hu
        obtain ⟨before, after, w₂, rfl, hbefore, hafter⟩ := ih
        exact ⟨_ :: before, after, w₂, rfl, .call hearly hfire hbefore, hafter⟩
  · rintro ⟨before, after, w₁, rfl, hbefore, hafter⟩
    induction hbefore with
    | arrive hearly => exact (Timed.journey_moveTo h hearly).mp hafter
    | call hearly hfire _ ih => exact .call (Clock.popDue_of_le h hearly) hfire (ih hafter)

variable [Zero τ] [Add τ]

theorem Timed.advanceTo_of_none {fuel : ℕ}
    (hpop : w.clock.popDue (some time) = (none, w.clock.tidied)) :
    Timed.advanceTo fire (fuel + 1) time w =
      (.ok (), { w with clock := w.clock.tidied.moveTo time }) := by
  simp only [Timed.advanceTo, Timed.drain, Act.bind_apply, Timed.popDue_apply hpop]
  rfl

theorem Timed.advanceTo_of_some {fuel : ℕ} {t : Timer τ κ} {clock : Clock τ κ}
    (hpop : w.clock.popDue (some time) = (some t, clock)) :
    Timed.advanceTo fire (fuel + 1) time w =
      (fire t >>= fun _ => Timed.advanceTo fire fuel time) { w with clock } := by
  simp only [Timed.advanceTo, Timed.drain, Act.bind_apply, Timed.popDue_apply hpop]
  rcases fire t { w with clock } with ⟨stop | u, w₁⟩ <;> rfl

/-- A journey is what a movement is that comes to its end. -/
theorem Timed.journey_iff : (∃ fuel, Timed.advanceTo fire fuel time w = (.ok (), w')) ↔
    ∃ calls, Timed.Journey fire time w calls w' := by
  constructor
  · rintro ⟨fuel, hrun⟩
    induction fuel generalizing w with
    | zero => cases hrun
    | succ fuel ih =>
      rcases hpop : w.clock.popDue (some time) with ⟨_ | t, clock⟩
      · obtain rfl := Clock.popDue_of_none hpop
        rw [Timed.advanceTo_of_none hpop] at hrun
        obtain rfl := (Prod.mk.inj hrun).2
        exact ⟨[], .arrive hpop⟩
      · rw [Timed.advanceTo_of_some hpop, Act.bind_apply] at hrun
        rcases hfire : fire t { w with clock } with ⟨stop | u, w₁⟩
        · rw [hfire] at hrun
          cases hrun
        · rw [hfire] at hrun
          obtain ⟨calls, hcalls⟩ := ih hrun
          exact ⟨_, .call hpop hfire hcalls⟩
  · rintro ⟨calls, hjourney⟩
    induction hjourney with
    | arrive hpop => exact ⟨1, Timed.advanceTo_of_none hpop⟩
    | call hpop hfire _ ih =>
      obtain ⟨fuel, hrun⟩ := ih
      refine ⟨fuel + 1, ?_⟩
      rw [Timed.advanceTo_of_some hpop, Act.bind_apply, hfire]
      exact hrun

end Journeys

/-! ### Sessions -/

section Sessions

variable [LinearOrder τ] [Zero τ] [Add τ] [Sub τ] {host : Host τ σ} {n m : ℕ} {op : Op τ}
  {ops before after : List (Op τ)} {w w₁ w' : World τ (Client σ)} {early late time : τ}

/-- Whether operations come to their ends, whether or not some of them fail, and leave this world,
in which the events of all of them are kept. -/
def Session.EndsIn (host : Host τ σ) (fuel : ℕ) :
    List (Op τ) → World τ (Client σ) → World τ (Client σ) → Prop
  | [], w, w' => w' = w
  | op :: ops, w, w' => (op.run (outside host fuel) fuel w).1 ≠ .error .exhausted ∧
    EndsIn host fuel ops (op.run (outside host fuel) fuel w).2 w'

/-- The same whatever fuel it takes. -/
def Session.Leads (host : Host τ σ) (ops : List (Op τ)) (w w' : World τ (Client σ)) : Prop :=
  ∃ fuel, Session.EndsIn host fuel ops w w'

/-- What an operation is cut into: a movement to a time into movements to times on the way and then
to that time, and any other into itself. -/
inductive Op.CutInto : Op τ → List (Op τ) → Prop
  | whole (op : Op τ) : CutInto op [op]
  | stops {time : τ} {times : List τ} (h : ∀ t ∈ times, t ≤ time) :
    CutInto (.advanceTo time) ((times ++ [time]).map .advanceTo)

theorem Op.run_more (hhost : host.Breaks fun _ => False) (hnm : n ≤ m)
    (hend : (op.run (outside host n) n w).1 ≠ .error .exhausted) :
    op.run (outside host n) n w = op.run (outside host m) m w := by
  have hout : (outside host n).Within (Stop.OrFails fun _ => True) (outside host m) :=
    (outside_within hhost hnm).mono fun _ => Or.imp_right fun _ => trivial
  exact (hout.op hnm fun _ _ => .inr trivial).eq hend

theorem Session.EndsIn.more (hhost : host.Breaks fun _ => False) (hnm : n ≤ m)
    (h : Session.EndsIn host n ops w w') : Session.EndsIn host m ops w w' := by
  induction ops generalizing w with
  | nil => exact h
  | cons op ops ih =>
    obtain ⟨hend, hrest⟩ := h
    have hmore := Op.run_more hhost hnm hend
    unfold Session.EndsIn
    rw [← hmore]
    exact ⟨hend, ih hrest⟩

theorem Session.EndsIn.append : Session.EndsIn host n (before ++ after) w w' ↔
    ∃ w₁, Session.EndsIn host n before w w₁ ∧ Session.EndsIn host n after w₁ w' := by
  induction before generalizing w with
  | nil => simp [Session.EndsIn]
  | cons op before ih => simp only [List.cons_append, Session.EndsIn, ih, and_assoc, exists_and_left]

/-- Operations lead from one world to only one other. -/
theorem Session.Leads.unique (hhost : host.Breaks fun _ => False) (h : Session.Leads host ops w w₁)
    (h' : Session.Leads host ops w w') : w₁ = w' := by
  obtain ⟨n, hn⟩ := h
  obtain ⟨m, hm⟩ := h'
  replace hn := hn.more hhost (Nat.le_max_left n m)
  replace hm := hm.more hhost (Nat.le_max_right n m)
  generalize max n m = fuel at hn hm
  induction ops generalizing w with
  | nil => exact hn.trans hm.symm
  | cons op ops ih => exact ih hn.2 hm.2

/-- Operations lead on from where those before them lead to. -/
theorem Session.leads_append (hhost : host.Breaks fun _ => False) :
    Session.Leads host (before ++ after) w w' ↔
      ∃ w₁, Session.Leads host before w w₁ ∧ Session.Leads host after w₁ w' := by
  constructor
  · rintro ⟨n, h⟩
    obtain ⟨w₁, hbefore, hafter⟩ := Session.EndsIn.append.mp h
    exact ⟨w₁, ⟨n, hbefore⟩, ⟨n, hafter⟩⟩
  · rintro ⟨w₁, ⟨n, hbefore⟩, ⟨m, hafter⟩⟩
    refine ⟨max n m, Session.EndsIn.append.mpr ⟨w₁, ?_, ?_⟩⟩
    · exact hbefore.more hhost (Nat.le_max_left n m)
    · exact hafter.more hhost (Nat.le_max_right n m)

theorem Session.advanceTo_within (hhost : host.Breaks fun _ => False) {depth depth' : ℕ}
    (hdepth : depth ≤ depth') (hnm : n ≤ m) (time : τ) : Act.Within (fun _ => False)
      (Timed.advanceTo (View.fire (outside host depth)) n time)
      (Timed.advanceTo (View.fire (outside host depth')) m time) :=
  .advanceTo (fun t => .fire (outside_within hhost hdepth).present t) hnm time

/-- A movement that comes to its end is not stopped, for whoever is shown a status only fails. So it
is a journey, with code outside of any depth from some on. -/
theorem Session.Leads.journey (hhost : host.Breaks fun _ => False)
    (h : Session.Leads host [.advanceTo time] w w') : ∃ least, ∀ depth ≥ least, ∃ calls,
      Timed.Journey (View.fire (outside host depth)) time w calls w' := by
  obtain ⟨n, hend, rfl⟩ := h
  refine ⟨n, fun depth hdepth => Timed.journey_iff.mp ⟨n, ?_⟩⟩
  have hop : (Op.advanceTo time).run (outside host n) n w =
      silently (Timed.advanceTo (View.fire (outside host n)) n time) w := rfl
  rw [hop, silently, Act.bind_apply] at hend ⊢
  have hmore := Session.advanceTo_within hhost hdepth (Nat.le_refl n) time w
  rcases hrun : Timed.advanceTo (View.fire (outside host n)) n time w with ⟨stop | u, w₁⟩
  · rw [hrun] at hend hmore
    rcases hmore with hexhausted | ⟨-, hnone⟩
    · exact absurd (congrArg Except.error (Except.error.inj hexhausted)) hend
    · exact (hnone stop rfl).elim
  · rw [hrun] at hmore
    rcases hmore with hexhausted | ⟨hsame, -⟩
    · cases hexhausted
    · exact hsame.symm

theorem Session.leads_of_journey (hhost : host.Breaks fun _ => False) {depth : ℕ}
    {calls : List (Timer τ Alarm × World τ (Client σ))}
    (h : Timed.Journey (View.fire (outside host depth)) time w calls w') :
    Session.Leads host [.advanceTo time] w w' := by
  obtain ⟨fuel, hrun⟩ := Timed.journey_iff.mpr ⟨calls, h⟩
  have hmore := (Session.advanceTo_within hhost (Nat.le_max_right fuel depth)
    (Nat.le_max_left fuel depth) time).eq (w := w) (by simp [hrun])
  have hop : (Op.advanceTo time).run (outside host (max fuel depth)) (max fuel depth) w =
      (.ok .nothing, w') := by
    show silently _ w = _
    rw [silently, Act.bind_apply, ← hmore, hrun]
    rfl
  refine ⟨max fuel depth, ?_⟩
  unfold Session.EndsIn
  rw [hop]
  exact ⟨by simp, rfl⟩

/-- A stop on the way makes no difference to where a movement leads. -/
theorem Session.leads_stop (hhost : host.Breaks fun _ => False) (h : early ≤ late) :
    (∃ w₁, Session.Leads host [.advanceTo early] w w₁ ∧
      Session.Leads host [.advanceTo late] w₁ w') ↔ Session.Leads host [.advanceTo late] w w' := by
  constructor
  · rintro ⟨w₁, hearly, hlate⟩
    obtain ⟨n, hn⟩ := hearly.journey hhost
    obtain ⟨m, hm⟩ := hlate.journey hhost
    obtain ⟨before, hbefore⟩ := hn (max n m) (Nat.le_max_left n m)
    obtain ⟨after, hafter⟩ := hm (max n m) (Nat.le_max_right n m)
    exact leads_of_journey hhost
      ((Timed.journey_cut h).mpr ⟨before, after, w₁, rfl, hbefore, hafter⟩)
  · intro hlate
    obtain ⟨n, hn⟩ := hlate.journey hhost
    obtain ⟨calls, hcalls⟩ := hn n (Nat.le_refl n)
    obtain ⟨before, after, w₁, -, hbefore, hafter⟩ := (Timed.journey_cut h).mp hcalls
    exact ⟨w₁, leads_of_journey hhost hbefore, leads_of_journey hhost hafter⟩

/-- What an operation is cut into leads where it leads, by induction on the stops. -/
theorem Op.CutInto.leads (hhost : host.Breaks fun _ => False) (h : op.CutInto ops) :
    Session.Leads host ops w w' ↔ Session.Leads host [op] w w' := by
  cases h with
  | whole => rfl
  | @stops time times h =>
    induction times generalizing w with
    | nil => rfl
    | cons t times ih =>
      have hrest : ∀ {w₁}, Session.Leads host ((times ++ [time]).map .advanceTo) w₁ w' ↔
          Session.Leads host [.advanceTo time] w₁ w' :=
        ih fun u hu => h u (List.mem_cons_of_mem t hu)
      calc Session.Leads host ([.advanceTo t] ++ (times ++ [time]).map .advanceTo) w w'
          ↔ ∃ w₁, Session.Leads host [.advanceTo t] w w₁ ∧
              Session.Leads host ((times ++ [time]).map .advanceTo) w₁ w' :=
            Session.leads_append hhost
        _ ↔ ∃ w₁, Session.Leads host [.advanceTo t] w w₁ ∧
              Session.Leads host [.advanceTo time] w₁ w' :=
            exists_congr fun w₁ => and_congr_right fun _ => hrest
        _ ↔ Session.Leads host [.advanceTo time] w w' :=
            Session.leads_stop hhost (h t List.mem_cons_self)

/-- Cutting every operation of a session, by induction on the operations. -/
theorem Session.leads_cut (hhost : host.Breaks fun _ => False) {pieces : List (List (Op τ))}
    (hcut : List.Forall₂ Op.CutInto ops pieces) :
    Session.Leads host pieces.flatten w w' ↔ Session.Leads host ops w w' := by
  induction hcut generalizing w with
  | nil => rfl
  | @cons op piece ops pieces hop _ ih =>
    calc Session.Leads host (piece ++ pieces.flatten) w w'
        ↔ ∃ w₁, Session.Leads host piece w w₁ ∧ Session.Leads host pieces.flatten w₁ w' :=
          Session.leads_append hhost
      _ ↔ ∃ w₁, Session.Leads host [op] w w₁ ∧ Session.Leads host ops w₁ w' :=
          exists_congr fun w₁ => and_congr (hop.leads hhost) ih
      _ ↔ Session.Leads host ([op] ++ ops) w w' := (Session.leads_append hhost).symm

/-- **How a stretch of time is cut makes no difference.** From any state of a clock and whatever its
calls do, the way to a time is the way to any earlier one and from there on: the same calls fire, in
the same order and each in the same world, and the world at the end is the same. So in a session
movements can be cut, and everything is shown at the same times and ends in the same world. -/
theorem Session.cuts_make_no_difference (fire : Timed.Fire (Clock τ κ) ω τ κ) (hle : early ≤ late)
    (hhost : host.Breaks fun _ => False) {pieces : List (List (Op τ))}
    (hcut : List.Forall₂ Op.CutInto ops pieces) :
    (∀ time w w', (∃ fuel, Timed.advanceTo fire fuel time w = (.ok (), w')) ↔
      ∃ calls, Timed.Journey fire time w calls w') ∧
    (∀ w calls w', Timed.Journey fire late w calls w' ↔
      ∃ before after w₁, calls = before ++ after ∧ Timed.Journey fire early w before w₁ ∧
        Timed.Journey fire late w₁ after w') ∧
    ∀ w w', Session.Leads host pieces.flatten w w' ↔ Session.Leads host ops w w' :=
  ⟨fun _ _ _ => Timed.journey_iff, fun _ _ _ => Timed.journey_cut hle,
    fun _ _ => Session.leads_cut hhost hcut⟩

end Sessions

/-- Calls that put themselves on the clock again, and a host that moves the clock and fails whenever
it is called. -/
theorem Session.cuts_make_no_difference_restless_host :
    let fire : Timed.Fire (Clock ℤ ℕ) ℕ ℤ ℕ := fun t =>
      .change fun w => ⟨(w.clock.arm 7 (t.call + 1)).2, w.rest + t.call⟩
    let host : Host ℤ ℕ := fun calls _ =>
      (calls + 1, { ops := [.advance 20], ending := some (.failure .noPlace) })
    let ops : List (Op ℤ) := [.advanceTo 200, .expect (.text "connecting"), .advanceTo 4000]
    let pieces : List (List (Op ℤ)) := [[.advanceTo 90, .advanceTo 200],
      [.expect (.text "connecting")], [.advanceTo 210, .advanceTo 3200, .advanceTo 4000]]
    let w₀ : World ℤ (Client ℕ) := Session.start ⟨150, 3000⟩ 0 { memory := 0 }
    (10 : ℤ) ≤ 30 ∧ host.Breaks (fun _ => False) ∧ List.Forall₂ Op.CutInto ops pieces ∧
      (∀ w calls w', Timed.Journey fire 30 w calls w' ↔ ∃ before after w₁,
        calls = before ++ after ∧ Timed.Journey fire 10 w before w₁ ∧
          Timed.Journey fire 30 w₁ after w') ∧
      ∃ w', Session.Leads host ops w₀ w' ∧ Session.Leads host pieces.flatten w₀ w' := by
  intro fire host ops pieces w₀
  have hhost : host.Breaks fun _ => False := by
    refine ⟨fun calls call s hs => .inl ?_, fun calls call op hop s hs => ?_⟩
    · obtain rfl := Option.some.inj hs
      rfl
    · obtain rfl := List.mem_singleton.mp hop
      cases hs
  have hfirst : Op.CutInto (.advanceTo (200 : ℤ)) [.advanceTo 90, .advanceTo 200] :=
    @Op.CutInto.stops ℤ _ 200 [90] (by simp)
  have hlast : Op.CutInto (.advanceTo (4000 : ℤ))
      [.advanceTo 210, .advanceTo 3200, .advanceTo 4000] :=
    @Op.CutInto.stops ℤ _ 4000 [210, 3200] (by simp)
  have hcut : List.Forall₂ Op.CutInto ops pieces :=
    .cons hfirst (.cons (.whole _) (.cons hlast .nil))
  obtain ⟨-, hjourney, hsession⟩ :=
    Session.cuts_make_no_difference fire (show (10 : ℤ) ≤ 30 by decide) hhost hcut
  have hends : ∃ w', Session.Leads host ops w₀ w' := by
    refine ⟨_, 10, ?_, ?_, ?_, rfl⟩
    all_goals
      intro hexhausted
      cases hexhausted
  obtain ⟨w', hw'⟩ := hends
  exact ⟨by decide, hhost, hcut, hjourney, w', hw', (hsession w₀ w').mpr hw'⟩

end TunnelView
