import Mathlib
import TunnelView.Proofs.Invariant
import TunnelView.Proofs.Order
import TunnelView.Proofs.Replays

/-!
# A replay that stops early

A replay may run to a given end, or until nothing is pending. With exact times the two differ only in
how far they get: the first shows what the second shows by the time at which it stops, and no more.
That time is the given end, but no earlier than the start or any event, since the clock never goes
back. The events need not be in the order of their times.

A run until idle at the end of a replay always gets there, since a view alone sets off at most three
calls in a row. So what a replay ends in is up to its events.

Key definitions: `Replay.Occasion`, `Replay.playOccasions`, `Watch.Listed`, `Op.OfReplay`.
Key theorems: `Replay.run_eq_playOccasions`, `Watch.Sound.drain_shown`, `Watch.Sound.excerpt`,
`Matches.runOps`, `Replay.stops_at_its_end`.
-/

namespace TunnelView

/-! ### Replays of events with exact times -/

namespace Replay

/-- An event whose time has been read; it need not have been checked otherwise. -/
structure Occasion (τ : Type) where
  time : τ
  fields : List (String × Value)

/-- The operations of an event: the clock goes to its time before its action is looked at. -/
def Occasion.ops {τ : Type} (e : Occasion τ) : List (Op τ) :=
  .advanceTo e.time :: match Action.ofFields e.fields with
    | .ok action => action.ops
    | .error f => [.stop (.failure f)]

/-- The operation at the end: the clock goes to a given end, or runs until idle. -/
def endOp {τ : Type} : Option τ → Op τ
  | none => .idle standardFirings
  | some time => .advanceTo time

/-- Replays events on a view of its own. -/
def playOccasions {τ : Type} [Zero τ] [Add τ] [Sub τ] [LT τ] [DecidableLT τ] [LE τ] [DecidableLE τ]
    (d : Delays τ) (events : List (Occasion τ)) (until? : Option τ) : Outcome τ :=
  let ops := events.flatMap Occasion.ops ++ [endOp until?]
  play d ops events.length (scriptFuel (τ := τ) [] ops.length)

/-- The time by which a replay has stopped: its end, but no earlier than the start or any event. -/
def stopTime {τ : Type} [Zero τ] [Max τ] (events : List (Occasion τ)) (until_ : τ) : τ :=
  (events.map Occasion.time).foldl max (max until_ 0)

/-- A value is an event with that time and those keys. -/
def Occasion.Reads (v : Value) (e : Occasion Number) : Prop :=
  v = .object e.fields ∧ ∃ time, Value.find? e.fields "at_ms" = some time ∧
    time.asNumber? = some e.time

theorem Op.goTo_of_number {v : Value} {time : Number} (h : v.asNumber? = some time) :
    Op.goTo v = .advanceTo time := by
  cases v <;> simp_all [Op.goTo, Value.asNumber?]

theorem eventOps_of_reads {v : Value} {e : Occasion Number} (h : Occasion.Reads v e) :
    eventOps v = e.ops := by
  obtain ⟨rfl, time, hfind, htime⟩ := h
  rw [eventOps, hfind]
  dsimp only
  rw [htime, Occasion.ops]
  cases Action.ofFields e.fields with
  | ok action => rfl
  | error f => dsimp only; rw [Op.goTo_of_number htime]

/-- A replay of a list of events with times, to a time or until idle, is a replay of those events. -/
theorem run_eq_playOccasions {config : Option (GivenDelays Value)} {given : GivenDelays Value}
    {d : Delays Number} (hd : Delays.read config given = .ok d) {items : List Value}
    {events : List (Occasion Number)} (h : List.Forall₂ Occasion.Reads items events)
    (until? : Option Number) :
    run config given (.list items) (until?.map .number) = playOccasions d events until? := by
  have hops : items.flatMap eventOps = events.flatMap Occasion.ops := by
    induction h with
    | nil => rfl
    | cons hread _ ih => rw [List.flatMap_cons, List.flatMap_cons, ih, eventOps_of_reads hread]
  have hend : endOps (until?.map .number) = [endOp until?] := by cases until? <;> rfl
  rw [run, hd, playOccasions, ← hops, ← hend, ← h.length_eq]
  rfl

end Replay

variable {τ σ : Type}

/-! ### What is shown is listed by time -/

namespace Watch

section

variable [LinearOrder τ]

/-- What was shown is listed by its times, none of which is still to come. -/
structure Listed (m : Watch τ) : Prop where
  sorted : m.shown.Pairwise fun p q => q.1 ≤ p.1
  past : ∀ p ∈ m.shown, p.1 ≤ m.now

/-- A step from one watch to another shows at most one status, at the time it leads to. -/
def ShowsOne (m m' : Watch τ) : Prop :=
  m'.shown = m.shown ∨ ∃ s, m'.shown = (m'.now, s) :: m.shown

theorem Listed.start (now : τ) : Listed (Watch.start now) := by
  constructor <;> simp [Watch.start]

variable {m m' : Watch τ}

theorem Listed.step (h : m.Listed) (hone : ShowsOne m m') (hnow : m.now ≤ m'.now) : m'.Listed := by
  have hpast : ∀ p ∈ m.shown, p.1 ≤ m'.now := fun p hp => (h.past p hp).trans hnow
  obtain hsame | ⟨s, hnew⟩ := hone
  · exact ⟨hsame ▸ h.sorted, hsame ▸ hpast⟩
  · constructor
    · rw [hnew]
      exact List.pairwise_cons.mpr ⟨hpast, h.sorted⟩
    · rw [hnew]
      exact List.forall_mem_cons.mpr ⟨le_rfl, hpast⟩

variable [AddCommGroup τ] (d : Delays τ)

omit [LinearOrder τ] in
theorem ShowsOne.assume (a : Assumption) (m : Watch τ) : ShowsOne m (m.assume d a) := by
  unfold Watch.assume
  split
  · exact .inl rfl
  · exact .inr ⟨_, rfl⟩

omit [LinearOrder τ] in
theorem ShowsOne.pass (s : Status) (m : Watch τ) : ShowsOne m (m.pass d s) := by
  have hnow := pass_now (d := d) s m
  obtain ⟨-, h⟩ | ⟨-, h | h⟩ := pass_shown (d := d) m s
  · exact .inr ⟨s, hnow.symm ▸ h⟩
  · exact .inl h
  · exact .inr ⟨_, hnow.symm ▸ h⟩

theorem ShowsOne.receive (s : Status) (m : Watch τ) : ShowsOne m (m.receive d s) := by
  unfold Watch.receive
  split
  · exact .inl rfl
  · split
    · exact .inl rfl
    · exact .pass d s m

theorem ShowsOne.ring (t : τ) (b : Bell) (m : Watch τ) : ShowsOne m (m.ring d t b) := by
  cases b with
  | report s => exact .pass d s (m.wait t)
  | giveUp =>
    rw [Watch.ring, Watch.giveUp]
    split
    · exact .inl rfl
    · exact .inr ⟨_, rfl⟩

/-- Whatever is done, what was shown stays listed by time. -/
theorem Listed.kept : Kept d (Listed : Watch τ → Prop) where
  ring {m t b} h _ := h.step (.ring d t b m) ((ring_now t b m).symm ▸ le_max_left ..)
  wait h _ := h.step (.inl rfl) (le_max_left ..)
  receive {m} s h := h.step (.receive d s m) (receive_now s m).ge
  assume {m} a h := h.step (.assume d a m) (assume_now a m).ge
  drop h := h.step (.inl rfl) le_rfl
  close h := h.step (.inl rfl) le_rfl

/-! ### Draining in two steps -/

variable {d} {T U : τ}

/-- What is due at all is what is due by a time, and then what is due after that. -/
theorem drain_drain (limit : τ) (m : Watch τ) :
    (m.drain d (some limit)).drain d none = m.drain d none := by
  fun_induction Watch.drain d (some limit) m with
  | case1 m _ => rfl
  | case2 m t b hdue ih =>
    have hnext : m.due? none = some (t, b) :=
      (due?_none_eq_next? m).trans (due?_eq_some_iff.mp hdue).1
    rw [ih, drain_of_some hnext]

omit [AddCommGroup τ] in
theorem Prompt.due?_now (h : m.Prompt) : m.due? (some m.now) = none := by
  rw [Option.eq_none_iff_forall_ne_some]
  rintro ⟨t, b⟩ hdue
  obtain ⟨hn, hle⟩ := due?_eq_some_iff.mp hdue
  refine (hle m.now rfl).not_gt ?_
  cases b with
  | report s => exact h.deferred s t (deferred_of_next? hn)
  | giveUp => exact h.deadline t (deadline_of_next? hn)

theorem Sound.advanceTo_now (hm : m.Sound d) : (m.advanceTo d U).now = max m.now U := by
  rcases le_or_gt m.now U with h | h
  · rw [Watch.advanceTo_now d h, max_eq_right h]
  · rw [hm.advanceTo_eq h, max_eq_left h.le]

theorem Prompt.advanceTo_of_sound (h : m.Prompt) (hm : m.Sound d) : (m.advanceTo d U).Prompt := by
  rcases le_or_gt m.now U with hU | hU
  · exact .advanceTo d hU
  · rwa [hm.advanceTo_eq hU]

variable [IsOrderedAddMonoid τ]

/-- **If nothing is due by a time, all that is shown from then on is shown after it**, since what a
deadline sets is due no earlier than the deadline itself. -/
theorem Sound.drain_shown (hm : m.Sound d) (hp : 0 < d.patience) (hdue : m.due? (some T) = none)
    (limit : Option τ) :
    ∃ late, (m.drain d limit).shown = late ++ m.shown ∧ ∀ p ∈ late, T < p.1 := by
  fun_induction Watch.drain d limit m with
  | case1 m _ => exact ⟨[], rfl, List.forall_mem_nil _⟩
  | case2 m t b hnext ih =>
    have hn := (due?_eq_some_iff.mp hnext).1
    have ht : T < t := by
      by_contra hle
      have hsome : m.due? (some T) = some (t, b) :=
        due?_eq_some_iff.mpr ⟨hn, fun l hl => Option.some.inj hl ▸ not_lt.mp hle⟩
      rw [hdue] at hsome
      contradiction
    have hm' := hm.ring hp hn
    have hlater : T < (m.ring d t b).now := by
      rw [ring_now]
      exact ht.trans_le (le_max_right ..)
    obtain ⟨late, hshown, hlate⟩ := ih hm' (hm'.due?_of_lt hlater)
    obtain hsame | ⟨s, hone⟩ := ShowsOne.ring d t b m
    · exact ⟨late, hsame ▸ hshown, hlate⟩
    · refine ⟨late ++ [((m.ring d t b).now, s)], ?_, ?_⟩
      · rw [hshown, hone, List.append_assoc, List.singleton_append]
      · exact List.forall_mem_append.mpr ⟨hlate, List.forall_mem_singleton.mpr hlater⟩

/-- What is shown by a time stands behind what is shown later. -/
theorem Sound.excerpt (hm : m.Sound d) (hp : 0 < d.patience) (hprompt : m.Prompt)
    (hlisted : m.Listed) (U : τ) :
    (∀ p ∈ (m.advanceTo d U).shown, p.1 ≤ max m.now U) ∧
      ∃ late, (m.drain d none).shown = late ++ (m.advanceTo d U).shown ∧
        ∀ p ∈ late, max m.now U < p.1 := by
  have hpast := ((Listed.kept d).advanceTo hlisted U).past
  have hdue := (hprompt.advanceTo_of_sound (U := U) hm).due?_now
  rw [hm.advanceTo_now] at hpast hdue
  refine ⟨hpast, ?_⟩
  -- waiting changes neither what is due nor what was shown
  have hrest : (m.drain d (some U)).due? (some (max m.now U)) = none := hdue
  have hsound : (m.drain d (some U)).Sound d := (Sound.lasting hp).drain hm (some U)
  obtain ⟨late, hshown, hlate⟩ := hsound.drain_shown hp hrest none
  rw [drain_drain] at hshown
  exact ⟨late, hshown, hlate⟩

end

/-! ### Events, one after another -/

section

variable [AddCommGroup τ] [LinearOrder τ] [IsOrderedAddMonoid τ] {d : Delays τ} {m : Watch τ}

/-- Operations that take the clock nowhere leave it where it is, and nothing due. -/
theorem Sound.after_still (hm : m.Sound d) (hw : 0 < d.window) (hp : 0 < d.patience)
    {ops : List (Op τ)} (hops : ∀ op ∈ ops, ∀ now, op.reaches now = false) :
    (m.after d ops).now = m.now ∧ (m.Prompt → (m.after d ops).Prompt) := by
  induction ops generalizing m with
  | nil => exact ⟨rfl, id⟩
  | cons op ops ih =>
    obtain ⟨hop, hops⟩ := List.forall_mem_cons.mp hops
    obtain ⟨hnow, hprompt⟩ := hm.prompt_of_not_reaches hw hp (hop m.now)
    obtain ⟨hnow', hprompt'⟩ := ih (hm.runOp hw hp op) hops
    exact ⟨hnow'.trans hnow, hprompt' ∘ hprompt⟩

theorem Sound.after_occasion (hm : m.Sound d) (hw : 0 < d.window) (hp : 0 < d.patience)
    (hprompt : m.Prompt) (e : Replay.Occasion τ) :
    (m.after d e.ops).now = max m.now e.time ∧ (m.after d e.ops).Prompt := by
  have hstill : ∀ op ∈ e.ops.tail, ∀ now, op.reaches now = false := by
    intro op hop now
    rw [Replay.Occasion.ops, List.tail_cons] at hop
    split at hop
    · rename_i action _
      cases action <;> simp_all [Action.ops, Op.reaches]
    · simp_all [Op.reaches]
  have hm' : (m.advanceTo d e.time).Sound d := (Sound.lasting hp).advanceTo hm e.time
  obtain ⟨hnow, hrest⟩ := hm'.after_still hw hp hstill
  exact ⟨hnow.trans hm.advanceTo_now, hrest (hprompt.advanceTo_of_sound hm)⟩

/-- After events the clock is at the latest of their times, and nothing is due. -/
theorem Sound.after_occasions (hm : m.Sound d) (hw : 0 < d.window) (hp : 0 < d.patience)
    (hprompt : m.Prompt) (events : List (Replay.Occasion τ)) :
    (m.after d (events.flatMap Replay.Occasion.ops)).now =
        (events.map Replay.Occasion.time).foldl max m.now ∧
      (m.after d (events.flatMap Replay.Occasion.ops)).Prompt := by
  induction events generalizing m with
  | nil => exact ⟨rfl, hprompt⟩
  | cons e events ih =>
    obtain ⟨hnow, hprompt'⟩ := hm.after_occasion hw hp hprompt e
    rw [List.flatMap_cons, after_append, List.map_cons, List.foldl_cons, ← hnow]
    exact ih (hm.after hw hp e.ops) hprompt'

end
end Watch

/-! ### What can stop a replay -/

/-- The operations of a replay: those of its events, and that of its end. -/
inductive Op.OfReplay : Op τ → Prop
  | notify (r : Report) : OfReplay (.notify r)
  | expect (kind : Value) : OfReplay (.expect kind)
  | reset : OfReplay .reset
  | advanceTo (time : τ) : OfReplay (.advanceTo time)
  | idle : OfReplay (.idle standardFirings)
  | noField (key : String) : OfReplay (.stop (.failure (.noField key)))

theorem Action.ofFields_eq_error {fields : List (String × Value)} {f : Failure τ}
    (h : Action.ofFields fields = .error f) : f = .noField "reset" := by
  unfold Action.ofFields at h
  split at h <;> cases h
  rfl

theorem Replay.Occasion.ofReplay (e : Occasion τ) : ∀ op ∈ e.ops, op.OfReplay := by
  refine List.forall_mem_cons.mpr ⟨.advanceTo e.time, fun op hop => ?_⟩
  split at hop
  · rename_i action _
    cases action <;> simp only [Action.ops, List.mem_singleton, List.not_mem_nil] at hop
    all_goals subst hop
    · exact .notify _
    · exact .expect _
    · exact .reset
  · rename_i f hf
    rw [Action.ofFields_eq_error hf, List.mem_singleton] at hop
    exact hop ▸ .noField _

theorem Replay.ofReplay (events : List (Occasion τ)) (until? : Option τ) :
    ∀ op ∈ events.flatMap Occasion.ops ++ [endOp until?], op.OfReplay := by
  refine List.forall_mem_append.mpr ⟨fun op hop => ?_, List.forall_mem_singleton.mpr ?_⟩
  · obtain ⟨e, -, hop⟩ := List.mem_flatMap.mp hop
    exact e.ofReplay op hop
  · cases until? with
    | none => exact .idle
    | some time => exact .advanceTo time

section Runs

variable [AddCommGroup τ] [LinearOrder τ] [IsOrderedAddMonoid τ] {d : Delays τ}
  {w : World τ (Client σ)} {m : Watch τ} {host : Host τ σ} {fuel : ℕ}

omit [IsOrderedAddMonoid τ] in
/-- The end of a replay is always reached. -/
theorem Watch.runOp_endOp (d : Delays τ) (m : Watch τ) (until? : Option τ) :
    m.runOp d (Replay.endOp until?) =
      (.ok .nothing, until?.elim (m.drain d none) fun time => m.advanceTo d time) := by
  cases until? with
  | none => exact runOp_idle (by decide) m
  | some time => rfl

omit [IsOrderedAddMonoid τ] in
/-- What a replay does may raise, but it never fires calls without end. -/
theorem Watch.not_stall (m : Watch τ) {op : Op τ} (hop : op.OfReplay) {s : Stop τ}
    (hs : (m.runOp d op).1 = .error s) : ¬s.IsStall := by
  cases hop with
  | noField key => cases hs
  | notify r =>
    rw [runOp] at hs
    split at hs <;> cases hs
    rintro ⟨⟩
  | expect kind =>
    rw [runOp] at hs
    split at hs <;> cases hs
    rintro ⟨⟩
  | reset => cases hs
  | advanceTo time => cases hs
  | idle =>
    rw [runOp_idle (by decide) m] at hs
    cases hs

theorem Matches.runOfReplay (h : Matches Client.Undisturbed d w m) (hm : m.Ripe d)
    (hhost : host.LooksOn) (hw : 0 < d.window) (hp : 0 < d.patience) (hf : 4 ≤ fuel) {op : Op τ}
    (hop : op.OfReplay) :
    Matches Client.Undisturbed d (op.run (outside host fuel) fuel w).2 (m.runOp d op).2 ∧
      ∀ s, (op.run (outside host fuel) fuel w).1 = .error s → ¬s.IsStall := by
  by_cases hview : op.onView
  · obtain ⟨houtcome, h'⟩ := h.runOp hm hhost hw hp hf hview
    exact ⟨h', fun s hs => m.not_stall hop (houtcome.symm.trans hs)⟩
  · cases hop with
    | noField key =>
      refine ⟨h, fun s hs => ?_⟩
      cases hs
      rintro ⟨⟩
    | _ => exact absurd rfl hview

/-- **The operations of a replay run on a watch** up to their end, or to what stops them, which is
never that calls fire without end. -/
theorem Matches.runOps (h : Matches Client.Undisturbed d w m) (hm : m.Ripe d)
    (hhost : host.LooksOn) (hw : 0 < d.window) (hp : 0 < d.patience) (hf : 4 ≤ fuel)
    {ops : List (Op τ)} (hops : ∀ op ∈ ops, op.OfReplay) :
    ∃ before, Matches Client.Undisturbed d
        (runOps (Op.run (outside host fuel) fuel) ops w).2 (m.after d before) ∧
      ((TunnelView.runOps (Op.run (outside host fuel) fuel) ops w).1 = .ok () → before = ops) ∧
      ∀ s, (TunnelView.runOps (Op.run (outside host fuel) fuel) ops w).1 = .error s →
        ¬s.IsStall := by
  induction ops generalizing w m with
  | nil => exact ⟨[], h, fun _ => rfl, nofun⟩
  | cons op ops ih =>
    obtain ⟨hop, hops⟩ := List.forall_mem_cons.mp hops
    obtain ⟨h₁, hstop⟩ := h.runOfReplay hm hhost hw hp hf hop
    rcases hrun : op.run (outside host fuel) fuel w with ⟨s | reply, w₁⟩
    · rw [hrun] at h₁ hstop
      rw [runOps_cons_of_error hrun]
      refine ⟨[op], h₁, nofun, fun s' hs' => ?_⟩
      cases hs'
      exact hstop s rfl
    · rw [hrun] at h₁
      rw [runOps_cons_of_ok hrun]
      obtain ⟨before, h₂, hbefore, hstops⟩ := ih h₁ (Watch.Ripe.kept.runOp hm op) hops
      exact ⟨op :: before, h₂, fun hok => by rw [hbefore hok], hstops⟩

end Runs

/-! ### Replays -/

namespace Replay

variable [AddCommGroup τ] [LinearOrder τ] [IsOrderedAddMonoid τ] {d : Delays τ}

omit [IsOrderedAddMonoid τ] in
/-- What a replay leaves, by how its operations run. -/
theorem playOccasions_eq (d : Delays τ) (events : List (Occasion τ)) :
    ∃ fuel, 4 ≤ fuel ∧ ∀ until?,
      let run := runOps (Op.run (outside silent fuel) fuel)
        (events.flatMap Occasion.ops ++ [endOp until?])
        (Session.start d 0 ({ memory := () } : Client Unit))
      (playOccasions d events until?).result = run.1 ∧
        commits (playOccasions d events until?).events = (commits run.2.rest.events).reverse := by
  refine ⟨8 * ((events.flatMap Occasion.ops).length + 1) + 1000, by omega, fun until? => ?_⟩
  have hfuel : scriptFuel (τ := τ) [] (events.flatMap Occasion.ops ++ [endOp until?]).length =
      8 * ((events.flatMap Occasion.ops).length + 1) + 1000 := by
    rw [List.length_append]
    rfl
  rw [playOccasions, hfuel]
  exact play_eq d _ _ _

/-- The operations of a replay run on a watch. -/
theorem matches_runOps (hw : 0 < d.window) (hp : 0 < d.patience) {fuel : ℕ} (hf : 4 ≤ fuel)
    {ops : List (Op τ)} (hops : ∀ op ∈ ops, op.OfReplay) :
    let run := runOps (Op.run (outside silent fuel) fuel) ops
      (Session.start d 0 ({ memory := () } : Client Unit))
    ∃ before, Matches Client.Undisturbed d run.2 ((Watch.start 0).after d before) ∧
      (run.1 = .ok () → before = ops) ∧ ∀ s, run.1 = .error s → ¬s.IsStall :=
  (Matches.start _ (Client.undisturbed_alone ()) 0).runOps (.start 0) silent_looksOn hw hp hf hops

/-- However a replay ends, what it shows is listed by time, and it was not stopped by calls that fire
without end. -/
theorem playOccasions_listed (hw : 0 < d.window) (hp : 0 < d.patience) (events : List (Occasion τ))
    (until? : Option τ) :
    (commits (playOccasions d events until?).events).Pairwise (fun p q => p.1 ≤ q.1) ∧
      ∀ s, (playOccasions d events until?).result = .error s → ¬s.IsStall := by
  obtain ⟨fuel, hf, hplay⟩ := playOccasions_eq d events
  obtain ⟨hresult, hcommits⟩ := hplay until?
  obtain ⟨before, h, -, hstops⟩ := matches_runOps hw hp hf (ofReplay events until?)
  rw [hcommits, hresult, h.shown]
  have hlisted := (Watch.Listed.kept d).after (.start 0) before
  exact ⟨List.pairwise_reverse.mpr hlisted.sorted, hstops⟩

/-- A replay that nothing stops shows what the watch shows after its events and its end. -/
theorem commits_of_ok (hw : 0 < d.window) (hp : 0 < d.patience) {events : List (Occasion τ)}
    {until? : Option τ} (hok : (playOccasions d events until?).result = .ok ()) :
    let m := (Watch.start 0).after d (events.flatMap Occasion.ops)
    commits (playOccasions d events until?).events =
      (until?.elim (m.drain d none) fun time => m.advanceTo d time).shown.reverse := by
  intro m
  obtain ⟨fuel, hf, hplay⟩ := playOccasions_eq d events
  obtain ⟨hresult, hcommits⟩ := hplay until?
  obtain ⟨before, h, hbefore, -⟩ := matches_runOps hw hp hf (ofReplay events until?)
  have hend : m.after d [endOp until?] = (m.runOp d (endOp until?)).2 := rfl
  rw [hcommits, h.shown, hbefore (hresult.symm.trans hok), Watch.after_append, hend,
    Watch.runOp_endOp]

/-- Whether a replay is stopped does not depend on its end. -/
theorem ok_of_ok (hw : 0 < d.window) (hp : 0 < d.patience) {events : List (Occasion τ)}
    {until? : Option τ} (hok : (playOccasions d events until?).result = .ok ()) (other? : Option τ) :
    (playOccasions d events other?).result = .ok () := by
  obtain ⟨fuel, hf, hplay⟩ := playOccasions_eq d events
  rw [(hplay until?).1] at hok
  rw [(hplay other?).1]
  obtain ⟨before, h, hbefore, -⟩ := matches_runOps hw hp hf
    fun op hop => ofReplay events none op (List.mem_append_left _ hop)
  rcases hrun : runOps (Op.run (outside silent fuel) fuel) (events.flatMap Occasion.ops)
      (Session.start d 0 { memory := () }) with ⟨s | ⟨⟩, w⟩
  · rw [runOps_append_of_error hrun] at hok
    contradiction
  · rw [hrun] at h
    have hview : (endOp other?).onView := by cases other? <;> rfl
    have hripe : ((Watch.start 0).after d before).Ripe d := Watch.Ripe.kept.after (.start 0) before
    obtain ⟨hlast, -⟩ := h.runOp hripe silent_looksOn hw hp hf hview
    rw [Watch.runOp_endOp] at hlast
    rw [runOps_append_of_ok hrun, runOps_cons_of_ok (Prod.ext hlast rfl)]
    rfl

omit [IsOrderedAddMonoid τ] in
theorem stopTime_eq (events : List (Occasion τ)) (last : τ) :
    stopTime events last = max ((events.map Occasion.time).foldl max 0) last := by
  rw [stopTime, List.foldl_assoc, max_comm]

/-- The replay that runs until idle goes on from where one with an end stops. -/
theorem commits_append (hw : 0 < d.window) (hp : 0 < d.patience) {events : List (Occasion τ)}
    (hok : (playOccasions d events none).result = .ok ()) (last : τ) :
    ∃ late, commits (playOccasions d events none).events =
        commits (playOccasions d events (some last)).events ++ late ∧
      (∀ p ∈ commits (playOccasions d events (some last)).events, p.1 ≤ stopTime events last) ∧
      ∀ p ∈ late, stopTime events last < p.1 := by
  rw [commits_of_ok hw hp hok, commits_of_ok hw hp (ok_of_ok hw hp hok (some last)), stopTime_eq]
  -- after the events the clock is at the latest of their times, and nothing is due
  have hstart : (Watch.start 0).Sound d := .start 0
  have hsound := hstart.after hw hp (events.flatMap Occasion.ops)
  have hlisted := (Watch.Listed.kept d).after (.start 0) (events.flatMap Occasion.ops)
  obtain ⟨hnow, hprompt⟩ := hstart.after_occasions hw hp (.start 0) events
  obtain ⟨hpast, late, hshown, hlate⟩ := hsound.excerpt hp hprompt hlisted last
  rw [hnow] at hpast hlate
  refine ⟨late.reverse, ?_, fun p hp => hpast p (List.mem_reverse.mp hp),
    fun p hp => hlate p (List.mem_reverse.mp hp)⟩
  exact (congrArg List.reverse hshown).trans List.reverse_append

/-- **A replay that stops early shows the beginning of the whole replay.** In every replay the times
of what is shown do not decrease, and it is not stopped by calls that fire without end. If nothing
stops the replay that runs until idle, then nothing stops one with an end, and it shows just what the
other shows by the time at which it stops. -/
theorem stops_at_its_end (hw : 0 < d.window) (hp : 0 < d.patience) (events : List (Occasion τ)) :
    (∀ until?, (commits (playOccasions d events until?).events).Pairwise fun p q => p.1 ≤ q.1) ∧
    (∀ until? s, (playOccasions d events until?).result = .error s → ¬s.IsStall) ∧
    ((playOccasions d events none).result = .ok () → ∀ last,
      let whole := commits (playOccasions d events none).events
      let early := commits (playOccasions d events (some last)).events
      (playOccasions d events (some last)).result = .ok () ∧
        early <+: whole ∧ early = whole.filter fun p => p.1 ≤ stopTime events last) := by
  refine ⟨fun until? => (playOccasions_listed hw hp events until?).1,
    fun until? => (playOccasions_listed hw hp events until?).2, fun hok last => ?_⟩
  obtain ⟨late, hwhole, hearly, hlate⟩ := commits_append hw hp hok last
  refine ⟨ok_of_ok hw hp hok (some last), ⟨late, hwhole.symm⟩, ?_⟩
  have hnone : late.filter (fun p => decide (p.1 ≤ stopTime events last)) = [] :=
    List.filter_eq_nil_iff.mpr fun p hp => by simpa using hlate p hp
  rw [hwhole, List.filter_append, hnone, List.append_nil, List.filter_eq_self.mpr]
  exact fun p hp => decide_eq_true (hearly p hp)

/-- An action that comes after a report but before it in time, and a disconnect for a new connection
that is put off until 410 and then waits until 3410 for the service. -/
def outOfOrder : List (Occasion ℤ) :=
  [⟨200, [("status", .object [("state", .text "connected")])]⟩,
    ⟨260, [("status", .object [("state", .text "disconnecting"), ("reason", .text "reconnect")])]⟩,
    ⟨100, [("reset", .bool true)]⟩]

/-- The call that is due just when the replay stops still fires, and what it sets off does not. -/
theorem stops_at_its_end_out_of_order :
    let whole := commits (playOccasions ⟨150, 3000⟩ outOfOrder none).events
    let early := commits (playOccasions ⟨150, 3000⟩ outOfOrder (some 410)).events
    (0 : ℤ) < 150 ∧ (0 : ℤ) < 3000 ∧
      (playOccasions ⟨150, 3000⟩ outOfOrder none).result = .ok () ∧
      whole = [(200, .bare .connected), (410, .bare .connecting),
        (3410, .bare (.disconnecting .reconnect))] ∧
      early <+: whole ∧ early = whole.filter (fun p => p.1 ≤ stopTime outOfOrder 410) ∧
      early.length = 2 := by
  have hok : (playOccasions ⟨150, 3000⟩ outOfOrder none).result = .ok () := by cbv
  have hwhole : commits (playOccasions ⟨150, 3000⟩ outOfOrder none).events =
      [(200, .bare .connected), (410, .bare .connecting),
        (3410, .bare (.disconnecting .reconnect))] := by cbv
  obtain ⟨-, -, h⟩ := stops_at_its_end (d := ⟨150, 3000⟩) (by decide) (by decide) outOfOrder
  obtain ⟨-, hpre, hearly⟩ := h hok 410
  refine ⟨by decide, by decide, hok, hwhole, hpre, hearly, ?_⟩
  show (commits (playOccasions ⟨150, 3000⟩ outOfOrder (some 410)).events).length = 2
  rw [hearly, hwhole]
  rfl

end Replay
end TunnelView
