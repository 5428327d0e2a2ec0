import Mathlib
import TunnelView.Proofs.Closing
import TunnelView.Proofs.Idling
import TunnelView.Proofs.Reentry.Gate

/-!
# Every operation comes to an end

Whoever is called from the midst of an operation may run operations of its own, and those may call
it again. If that happens only so many times, every operation comes to an end: between two such times
at most three calls fire on the clock, since each uses up what is armed (`View.weight`) and a report
that was put off is not put off again. So fuel for four firings is enough for each time that code
outside calls back, and four more; the same goes for the depth of calls inside calls.

Fuel is no part of what happens. Code outside that sees an operation run out of it passes that on,
and does not make it up (`Player.GivesUp`).

Key definitions: `World.begun`, `World.Passes`, `Lasts`, `Conduct.GivesUp`, `Player.GivesUp`,
`World.Met`.
Key theorems: `Lasts.fire`, `Lasts.drain`, `Lasts.op`, `Player.outside_lasts`,
`Player.ends_if_called_back_finitely`.
-/

namespace TunnelView

variable {τ σ α β : Type}

/-! ### How often code outside called back -/

/-- Whether a moment is the beginning of an operation. -/
def Moment.begins? : Moment τ → Bool
  | .begins _ => true
  | _ => false

/-- How many operations were begun. -/
def World.begun (w : World τ (Chronicled τ σ)) : ℕ := w.diary.countP (·.moment.begins?)

theorem World.begun_enter (m : Moment τ) (w : World τ (Chronicled τ σ)) :
    (w.enter m).begun = w.begun + m.begins?.toNat := by
  rw [begun, diary_enter, List.countP_cons, begun]
  cases m.begins? <;> rfl

section Lasting

variable [AddCommGroup τ] [LinearOrder τ]

/-- What lies between two worlds of which one leads to the other. Unless an operation was begun on
the way, the view has not become heavier, as `weighs` weighs it. -/
structure World.Passes (weighs : View τ → ℕ) (w w' : World τ (Chronicled τ σ)) : Prop where
  gated : w'.rest.view.Gated w'.clock
  diary : ∀ e ∈ w'.diary, e ∈ w.diary ∨ e.view.Gated e.clock
  begun : w.begun ≤ w'.begun
  quiet : w'.begun = w.begun → weighs w'.rest.view ≤ weighs w.rest.view

namespace World.Passes

variable {weighs weighs' : View τ → ℕ} {w w₁ w₂ : World τ (Chronicled τ σ)}

theorem refl (h : w.rest.view.Gated w.clock) : w.Passes weighs w :=
  ⟨h, fun _ => .inl, le_rfl, fun _ => le_rfl⟩

theorem trans (h₁ : w.Passes weighs w₁) (h₂ : w₁.Passes weighs w₂) : w.Passes weighs w₂ where
  gated := h₂.gated
  diary e he := (h₂.diary e he).elim (h₁.diary e) .inr
  begun := h₁.begun.trans h₂.begun
  quiet he := by
    have hle₁ := h₁.begun
    have hle₂ := h₂.begun
    exact (h₂.quiet (by omega)).trans (h₁.quiet (by omega))

theorem mono (h : w.Passes weighs w₁)
    (hle : ∀ v v', weighs v' ≤ weighs v → weighs' v' ≤ weighs' v) : w.Passes weighs' w₁ :=
  ⟨h.gated, h.diary, h.begun, fun he => hle _ _ (h.quiet he)⟩

/-- Nothing is said of weights where an operation was begun. -/
theorem of_lt (h : w.Passes weighs w₁) (hlt : w.begun < w₁.begun) : w.Passes weighs' w₁ :=
  ⟨h.gated, h.diary, h.begun, fun he => absurd he hlt.ne'⟩

/-- A step that calls nobody. -/
theorem of_owner (hgated : w₁.rest.view.Gated w₁.clock) (howner : w₁.rest.owner = w.rest.owner)
    (hle : weighs w₁.rest.view ≤ weighs w.rest.view) : w.Passes weighs w₁ := by
  have hdiary : w₁.diary = w.diary := congrArg (fun owner => owner.memory.diary) howner
  refine ⟨hgated, fun e he => .inl (hdiary ▸ he), ?_, fun _ => hle⟩
  rw [World.begun, World.begun, hdiary]

theorem enter (h : w.rest.view.Gated w.clock) (m : Moment τ) : w.Passes weighs (w.enter m) where
  gated := h
  diary e he := by
    rcases List.mem_cons.mp he with rfl | hold
    · exact .inr h
    · exact .inl hold
  begun := by
    rw [World.begun_enter]
    exact Nat.le_add_right ..
  quiet _ := le_rfl

end World.Passes

/-- A run that lasts: it leads on as `World.Passes` says, and if it runs out of the fuel `n`, then
operations were begun on the way for every four units of it. -/
def Lasts (n : ℕ) (weighs : View τ → ℕ) (x : Run τ (Chronicled τ σ) α) : Prop :=
  ∀ w, w.rest.view.Gated w.clock → w.Passes weighs (x w).2 ∧
    ((x w).1 = .error .exhausted → w.begun + n / 4 ≤ (x w).2.begun)

namespace Lasts

variable {n : ℕ} {weighs weighs' : View τ → ℕ} {x : Run τ (Chronicled τ σ) α}

theorem mono (h : Lasts n weighs x)
    (hle : ∀ v v', weighs v' ≤ weighs v → weighs' v' ≤ weighs' v) : Lasts n weighs' x :=
  fun w hw => ⟨(h w hw).1.mono hle, (h w hw).2⟩

/-- Where nothing is weighed. -/
theorem unweighed (h : Lasts n weighs x) : Lasts n (fun _ => 0) x := h.mono fun _ _ _ => le_rfl

/-- A run that calls nobody does not run out of fuel. -/
theorem of_ok (hok : ∀ w, ∃ a, (x w).1 = .ok a)
    (h : ∀ w : World τ (Chronicled τ σ), w.rest.view.Gated w.clock → w.Passes weighs (x w).2) :
    Lasts n weighs x := by
  refine fun w hw => ⟨h w hw, fun hr => ?_⟩
  obtain ⟨a, ha⟩ := hok w
  rw [ha] at hr
  cases hr

theorem of_still (hok : ∀ w, ∃ a, x w = (.ok a, w)) : Lasts n weighs x := by
  intro w hw
  obtain ⟨a, ha⟩ := hok w
  rw [ha]
  exact ⟨.refl hw, nofun⟩

theorem pure (a : α) : Lasts n weighs (Pure.pure a : Run τ (Chronicled τ σ) α) :=
  of_still fun _ => ⟨a, rfl⟩

theorem stop {s : Stop τ} (hs : s ≠ .exhausted) :
    Lasts n weighs (.stop s : Run τ (Chronicled τ σ) α) :=
  fun _ hw => ⟨.refl hw, fun hr => absurd (Except.error.inj hr) hs⟩

theorem fail (f : Failure τ) : Lasts n weighs (Act.fail f : Run τ (Chronicled τ σ) α) :=
  stop nofun

/-- The second part of a run starts where the first comes to its end with a value. The way to there
may have begun before, at `w`. -/
theorem bind_at {k : α → Run τ (Chronicled τ σ) β} {w v : World τ (Chronicled τ σ)}
    (hx : w.Passes weighs (x v).2 ∧ ((x v).1 = .error .exhausted → w.begun + n / 4 ≤ (x v).2.begun))
    (hk : ∀ a, Lasts n weighs (k a)) :
    w.Passes weighs ((x >>= k) v).2 ∧
      (((x >>= k) v).1 = .error .exhausted → w.begun + n / 4 ≤ ((x >>= k) v).2.begun) := by
  rw [Act.bind_apply]
  rcases hrun : x v with ⟨s | a, w₁⟩
  · rw [hrun] at hx
    exact ⟨hx.1, fun hr => hx.2 (congrArg Except.error (Except.error.inj hr))⟩
  · rw [hrun] at hx
    obtain ⟨hpasses, hexhausted⟩ := hk a w₁ hx.1.gated
    refine ⟨hx.1.trans hpasses, fun hr => ?_⟩
    exact (Nat.add_le_add_right hx.1.begun _).trans (hexhausted hr)

theorem bind {k : α → Run τ (Chronicled τ σ) β} (hx : Lasts n weighs x)
    (hk : ∀ a, Lasts n weighs (k a)) : Lasts n weighs (x >>= k) :=
  fun w hw => bind_at (hx w hw) hk

theorem world {k : World τ (Chronicled τ σ) → Run τ (Chronicled τ σ) α}
    (hk : ∀ w, Lasts n weighs (k w)) : Lasts n weighs (Act.world >>= k) :=
  (of_still fun w => ⟨w, rfl⟩).bind hk

/-! ### What a view does -/

theorem note (m : Note τ) : Lasts n weighs (TunnelView.note m : Run τ (Chronicled τ σ) Unit) :=
  of_ok (fun _ => ⟨(), rfl⟩) fun _ hw => .of_owner hw rfl le_rfl

theorem current : Lasts n weighs (View.current : Run τ (Chronicled τ σ) (View τ)) :=
  of_still fun w => ⟨w.rest.view, rfl⟩

theorem now : Lasts n weighs (Timed.now : Run τ (Chronicled τ σ) τ) :=
  of_still fun w => ⟨w.clock.now, rfl⟩

/-- A change of what is on show or kept. -/
theorem change {f : View τ → View τ} (hslots : ∀ v, (f v).deferral = v.deferral ∧
      (f v).timeout = v.timeout ∧ (f v).lastActed = v.lastActed ∧ (f v).delays = v.delays)
    (hle : ∀ v, weighs (f v) ≤ weighs v) :
    Lasts n weighs (View.change f : Run τ (Chronicled τ σ) Unit) :=
  of_ok (fun _ => ⟨(), rfl⟩) fun w hw => by
    obtain ⟨hdeferral, htimeout, hacted, hdelays⟩ := hslots w.rest.view
    exact .of_owner (hw.of_same hdeferral htimeout hacted hdelays) rfl (hle _)

theorem guarded {x : Run τ (Chronicled τ σ) Unit} (hx : Lasts n weighs x) :
    Lasts n weighs (TunnelView.guarded (View.showing.settle ()) x) := by
  intro w hw
  obtain ⟨hpasses, hexhausted⟩ := hx w hw
  obtain ⟨events, he⟩ := foldl_record (View.showing.settle () (x w).1).1 (x w).2
  have hworld : (TunnelView.guarded (View.showing.settle ()) x w).2 =
      { (x w).2 with rest.events := events } := he
  rw [hworld]
  refine ⟨hpasses.trans (.of_owner hpasses.gated rfl le_rfl), fun hr => hexhausted ?_⟩
  -- what the guard holds back is a failure, so it is not what comes out
  rcases hrun : x w with ⟨(f | message | _) | u, w₁⟩
  all_goals
    simp only [TunnelView.guarded, hrun] at hr
    cases hr
  rfl

variable {out : Outside τ (Chronicled τ σ)}
  (hp : ∀ s, Lasts n View.weight (out.present s))

include hp

/-- Showing a status does not make a view heavier, unless whoever is shown it calls back. -/
theorem commit (s : Status) : Lasts n View.weight (View.commit out s) := by
  refine current.bind fun v => ?_
  refine bind (change (fun _ => ⟨rfl, rfl, rfl, rfl⟩) fun _ => le_rfl) fun _ => ?_
  exact (note _).bind fun _ => (hp s).guarded

omit hp in
theorem resetFallback : Lasts n View.weight (View.resetFallback : Run τ (Chronicled τ σ) Unit) := by
  refine bind (of_ok (fun _ => ⟨(), rfl⟩) fun w hw => ?_) fun _ =>
    change (fun _ => ⟨rfl, rfl, rfl, rfl⟩) fun _ => le_rfl
  exact .of_owner (hw.cancel .giveUp) rfl (View.weight_cancel _ w.clock .giveUp)

theorem giveUp : Lasts n View.weight (View.giveUp out) := by
  refine current.bind fun v => ?_
  split
  · refine bind (change (fun _ => ⟨rfl, rfl, rfl, rfl⟩) fun _ => le_rfl) fun _ => ?_
    exact (note _).bind fun _ => commit hp _
  · exact pure ()

omit hp in
theorem close : Lasts n View.weight (View.close : Run τ (Chronicled τ σ) Unit) := by
  refine current.bind fun v => ?_
  split
  · exact pure ()
  · refine bind (change (fun _ => ⟨rfl, rfl, rfl, rfl⟩) fun _ => le_rfl) fun _ => ?_
    refine bind (of_ok (fun _ => ⟨(), rfl⟩) fun w hw => ?_) fun _ => ?_
    · exact .of_owner (hw.cancel (.deferred (.bare .disconnected))) rfl
        (View.weight_cancel _ w.clock (.deferred (.bare .disconnected)))
    · refine bind (of_ok (fun _ => ⟨(), rfl⟩) fun w hw => ?_) fun _ => ?_
      · exact .of_owner (hw.cancel .giveUp) rfl (View.weight_cancel _ w.clock .giveUp)
      · exact change (fun _ => ⟨rfl, rfl, rfl, rfl⟩) fun _ => le_rfl

variable [IsOrderedAddMonoid τ]

/-- An assumption is timed, but puts no report off. -/
theorem assume (a : Assumption) : Lasts n View.deferrals (View.assume out a) := by
  refine current.bind fun v => ?_
  split
  · exact note _
  · refine bind (change (fun _ => ⟨rfl, rfl, rfl, rfl⟩) fun _ => le_rfl) fun _ => ?_
    refine ((commit hp _).mono View.deferrals_le).bind fun _ => current.bind fun v => ?_
    refine (note _).bind fun _ => of_ok (fun _ => ⟨(), rfl⟩) fun w hw => ?_
    exact .of_owner (hw.schedule .giveUp fun h => absurd rfl h) rfl le_rfl

theorem reveal (s : Status) : Lasts n View.deferrals (View.reveal out s) := by
  unfold View.reveal
  split
  · exact (assume hp _).bind fun _ => change (fun _ => ⟨rfl, rfl, rfl, rfl⟩) fun _ => le_rfl
  · exact (commit hp s).mono View.deferrals_le

theorem act (s : Status) : Lasts n View.deferrals (View.act out s) := by
  refine current.bind fun v => ?_
  split
  · exact reveal hp s
  · split
    · exact (note _).bind fun _ => (resetFallback.mono View.deferrals_le).bind fun _ => reveal hp s
    · exact (note _).bind fun _ => change (fun _ => ⟨rfl, rfl, rfl, rfl⟩) fun _ => le_rfl

/-- A report that is not too soon puts off no other. -/
theorem receive_at {w : World τ (Chronicled τ σ)} (hw : w.rest.view.Gated w.clock)
    (hs : w.rest.view.tooSoon w.clock.now = false) (s : Status) :
    w.Passes View.deferrals (View.receive out s w).2 ∧
      ((View.receive out s w).1 = .error .exhausted →
        w.begun + n / 4 ≤ (View.receive out s w).2.begun) := by
  rw [View.receive_apply, hs]
  by_cases hc : w.rest.view.closed
  · rw [if_pos hc]
    exact ⟨.refl hw, by rintro ⟨⟩⟩
  · rw [if_neg hc, if_neg Bool.false_ne_true]
    have hclear : w.rest.view.deferring = false := (Bool.or_eq_false_iff.mp hs).2
    let acting : World τ (Chronicled τ σ) := { w with rest.view.lastActed := w.clock.now }
    have hgated : acting.rest.view.Gated acting.clock := hw.acts hclear
    have hacting : w.Passes View.deferrals acting := .of_owner hgated rfl le_rfl
    obtain ⟨hpasses, hexhausted⟩ := act hp s acting hgated
    exact ⟨hacting.trans hpasses, hexhausted⟩

theorem receive (s : Status) : Lasts n (fun _ => 0) (View.receive out s) := by
  intro w hw
  by_cases hs : w.rest.view.tooSoon w.clock.now
  · rw [View.receive_apply]
    split
    · exact ⟨.refl hw, by rintro ⟨⟩⟩
    · refine ⟨?_, by rintro ⟨⟩⟩
      exact .of_owner (hw.schedule (.deferred s) fun _ => le_rfl) rfl le_rfl
  · obtain ⟨hpasses, hexhausted⟩ := receive_at hp hw (Bool.eq_false_iff.mpr hs) s
    exact ⟨hpasses.mono fun _ _ _ => le_rfl, hexhausted⟩

/-! ### What fires -/

/-- **A call that fires uses up what is armed**, unless an operation is begun while it fires. -/
theorem fire {w : World τ (Chronicled τ σ)} (hw : w.rest.view.Gated w.clock) {limit : Option τ}
    {t : Timer τ Alarm} {clock : Clock τ Alarm} (hpop : w.clock.popDue limit = (some t, clock)) :
    let r := View.fire out t { w with clock }
    w.Passes (fun _ => 0) r.2 ∧
      (r.2.begun = w.begun → r.2.rest.view.weight < w.rest.view.weight) ∧
      (r.1 = .error .exhausted → w.begun + n / 4 ≤ r.2.begun) := by
  obtain ⟨hheld, hgated⟩ := hw.popDue hpop
  have hrun : View.fire out t { w with clock } = _ := (View.fire_apply t).trans (if_pos hheld)
  rcases t with ⟨deadline, serial, s | _⟩
  · let ready : World τ (Chronicled τ σ) :=
      { w with clock, rest.view.deferral := w.rest.view.deferral.emptied }
    replace hrun : View.fire out ⟨deadline, serial, .deferred s⟩ { w with clock } =
        View.receive out s ready := hrun
    have hready : w.Passes (fun _ => 0) ready := .of_owner hgated rfl le_rfl
    have hsoon : ready.rest.view.tooSoon ready.clock.now = false := hw.not_tooSoon hpop nofun
    obtain ⟨hpasses, hexhausted⟩ := receive_at hp (w := ready) hgated hsoon s
    rw [hrun]
    refine ⟨hready.trans (hpasses.mono fun _ _ _ => le_rfl), fun he => ?_, hexhausted⟩
    have harmed : w.rest.view.deferral.armed = some serial := hheld
    exact View.weight_lt_of_deferral harmed (hpasses.quiet he)
  · let ready : World τ (Chronicled τ σ) :=
      { w with clock, rest.view.timeout := w.rest.view.timeout.emptied }
    replace hrun : View.fire out ⟨deadline, serial, .giveUp⟩ { w with clock } =
        View.giveUp out ready := hrun
    have hready : w.Passes (fun _ => 0) ready := .of_owner hgated rfl le_rfl
    obtain ⟨hpasses, hexhausted⟩ := giveUp hp ready hgated
    rw [hrun]
    refine ⟨hready.trans (hpasses.mono fun _ _ _ => le_rfl), fun he => ?_, hexhausted⟩
    have harmed : w.rest.view.timeout.armed = some serial := hheld
    exact (hpasses.quiet he).trans_lt (View.weight_lt_of_timeout harmed)

/-- A look for what falls due finds nothing, or a call that is fired next. -/
theorem look {w : World τ (Chronicled τ σ)} (hw : w.rest.view.Gated w.clock) (limit : Option τ) :
    (∃ w', Timed.popDue limit w = (.ok none, w') ∧ w.Passes (fun _ => 0) w') ∨
      ∃ t w', Timed.popDue limit w = (.ok (some t), w') ∧
        w.Passes (fun _ => 0) (View.fire out t w').2 ∧
        ((View.fire out t w').2.begun = w.begun →
          (View.fire out t w').2.rest.view.weight < w.rest.view.weight) ∧
        ((View.fire out t w').1 = .error .exhausted →
          w.begun + n / 4 ≤ (View.fire out t w').2.begun) := by
  rcases hpop : w.clock.popDue limit with ⟨_ | t, clock⟩
  · obtain rfl := Clock.popDue_of_none hpop
    exact .inl ⟨_, Timed.popDue_apply hpop, .of_owner hw.tidied rfl le_rfl⟩
  · exact .inr ⟨t, _, Timed.popDue_apply hpop, fire hp hw hpop⟩

/-- **Going to a time takes at most four firings for each operation that is begun on the way**, by
induction on the fuel that is left. -/
theorem drain_at (limit : Option τ) (m : ℕ) {w : World τ (Chronicled τ σ)}
    (hw : w.rest.view.Gated w.clock) :
    let r : Except (Stop τ) Unit × World τ (Chronicled τ σ) := Timed.drain (View.fire out) limit m w
    w.Passes (fun _ => 0) r.2 ∧ (r.1 = .error .exhausted →
      m + 4 * w.begun ≤ 4 * r.2.begun + w.rest.view.weight ∨ w.begun + n / 4 ≤ r.2.begun) := by
  induction m generalizing w with
  | zero =>
    refine ⟨.refl hw, fun _ => .inl ?_⟩
    show 0 + 4 * w.begun ≤ 4 * w.begun + w.rest.view.weight
    omega
  | succ m ih =>
    simp only [Timed.drain, Act.bind_apply]
    obtain ⟨w₁, hlook, hpasses⟩ | ⟨t, w₁, hlook, hpasses, hlighter, hexhausted⟩ := look hp hw limit
    · rw [hlook]
      exact ⟨hpasses, by rintro ⟨⟩⟩
    · rw [hlook]
      dsimp only
      rw [Act.bind_apply]
      rcases hfire : View.fire out t w₁ with ⟨s | u, w₂⟩
      · rw [hfire] at hpasses hexhausted
        refine ⟨hpasses, fun hr => .inr (hexhausted ?_)⟩
        exact congrArg Except.error (Except.error.inj hr)
      · rw [hfire] at hpasses hlighter
        dsimp only at hpasses hlighter ⊢
        obtain ⟨hrest, hdone⟩ := ih hpasses.gated
        refine ⟨hpasses.trans hrest, fun hr => ?_⟩
        have hbegun := hpasses.begun
        have hheavy := w₂.rest.view.weight_le
        rcases hdone hr with hdone | hdone
        · left
          -- either the call used up what was armed, or an operation was begun
          by_cases he : w₂.begun = w.begun
          · have hless := hlighter he
            omega
          · omega
        · right
          omega

theorem drain (limit : Option τ) :
    Lasts n (fun _ => 0) (Timed.drain (View.fire out) limit n) := by
  intro w hw
  obtain ⟨hpasses, hdone⟩ := drain_at hp limit n hw
  refine ⟨hpasses, fun hr => ?_⟩
  have hheavy := w.rest.view.weight_le
  have hbegun := hpasses.begun
  rcases hdone hr with hdone | hdone
  · omega
  · exact hdone

theorem drainAll (most : ℤ) (m : ℕ) :
    Lasts n (fun _ => 0) (Timed.drainAll (View.fire out) most m) := by
  induction m with
  | zero => exact fail _
  | succ m ih =>
    intro w hw
    rw [Timed.drainAll, Act.bind_apply]
    obtain ⟨w₁, hlook, hpasses⟩ | ⟨t, w₁, hlook, hpasses, -, hexhausted⟩ := look hp hw none
    · rw [hlook]
      exact ⟨hpasses, by rintro ⟨⟩⟩
    · rw [hlook]
      exact bind_at (x := View.fire out t) ⟨hpasses, hexhausted⟩ fun _ => ih

theorem advanceTo (time : τ) :
    Lasts n (fun _ => 0) (Timed.advanceTo (View.fire out) n time) := by
  refine (drain hp _).bind fun _ => of_ok (fun _ => ⟨(), rfl⟩) fun w hw => ?_
  exact .of_owner (hw.moveTo time) rfl le_rfl

theorem advanceNowhere (kind? : Option String) :
    Lasts n (fun _ => 0) (Timed.advanceNowhere (View.fire out) n kind?) := by
  refine world fun w => ?_
  cases kind? with
  | none => exact (drain hp none).bind fun _ => now.bind fun _ => fail _
  | some kind =>
    cases Timekeeper.first? w.clock with
    | none => exact now.bind fun _ => fail _
    | some t => exact fail _

/-! ### Operations -/

omit hp [IsOrderedAddMonoid τ] in
/-- A failure to send a command names the command, and changes nothing else. -/
theorem send {c : Command} (hs : Lasts n weighs (out.send c)) : Lasts n weighs (Link.send out c) := by
  intro w hw
  obtain ⟨hpasses, hexhausted⟩ := hs w hw
  rw [Link.send]
  rcases hrun : out.send c w with ⟨(f | message | _) | u, w₁⟩
  all_goals rw [hrun] at hpasses hexhausted
  · exact ⟨hpasses, by rintro ⟨⟩⟩
  · exact ⟨hpasses, by rintro ⟨⟩⟩
  · exact ⟨hpasses, fun _ => hexhausted rfl⟩
  · exact ⟨hpasses, by rintro ⟨⟩⟩

theorem opParts : OpParts (fun _ x _ => Lasts n (fun _ => 0) x) out out n n where
  still := of_still
  bind := bind
  fail := fail
  note := note
  link _ := of_ok (fun _ => ⟨(), rfl⟩) fun _ hw => ⟨hw, fun _ => .inl, le_rfl, fun _ => le_rfl⟩
  reset := resetFallback.unweighed
  close := close.unweighed
  receive := receive hp
  assume a := (assume hp a).unweighed
  advanceTo := advanceTo hp
  advanceNowhere := advanceNowhere hp
  idle most := drainAll hp most _

/-- **Every operation lasts**, if code outside does. -/
theorem op (hs : ∀ c, Lasts n View.weight (out.send c)) {op : Op τ}
    (hop : op ≠ .stop .exhausted) : Lasts n (fun _ => 0) (op.run out n) :=
  (opParts hp).op (fun c _ => (hs c).send.unweighed) fun _ hs => stop fun hexhausted =>
    hop (hs.trans (congrArg Op.stop hexhausted))

end Lasts

/-- **At most three calls fire in a row** without an operation that is begun on the way; after three
nothing is left that could fire. -/
theorem Timed.Firings.quiet [IsOrderedAddMonoid τ] {n : ℕ} {out : Outside τ (Chronicled τ σ)}
    (hp : ∀ s, Lasts n View.weight (out.present s)) {w w' : World τ (Chronicled τ σ)}
    {calls : List (Timer τ Alarm × World τ (Chronicled τ σ))}
    (hw : w.rest.view.Gated w.clock) (h : Timed.Firings (View.fire out) w calls w') :
    w.Passes (fun _ => 0) w' ∧
      (w'.begun = w.begun → calls.length + w'.rest.view.weight ≤ w.rest.view.weight) := by
  induction h with
  | rest w => exact ⟨.refl hw, fun _ => (Nat.zero_add _).le⟩
  | @call w w₁ w' t clock calls hpop hfire _ ih =>
    obtain ⟨hpasses, hlighter, -⟩ := Lasts.fire hp hw hpop
    rw [hfire] at hpasses hlighter
    dsimp only at hpasses hlighter
    obtain ⟨hrest, hquiet⟩ := ih hpasses.gated
    refine ⟨hpasses.trans hrest, fun he => ?_⟩
    have hbegun := hpasses.begun
    have hbegun' := hrest.begun
    have hless := hlighter (by omega)
    have hcalls := hquiet (by omega)
    rw [List.length_cons]
    omega

/-! ### Code outside -/

/-- Conduct that does not make it up that fuel runs out, and gives up where it does. -/
inductive Conduct.GivesUp : Conduct τ σ → Prop
  | back {outcome : Except (Stop τ) Unit} : outcome ≠ .error .exhausted → GivesUp (.back outcome)
  | books {memory : σ} {events : List (Event τ)} {next : Conduct τ σ} : GivesUp next →
    GivesUp (.books memory events next)
  | runs {op : Op τ} {next : Except (Stop τ) Reply → World τ (Chronicled τ σ) → Conduct τ σ} :
    op ≠ .stop .exhausted → (∀ w, next (.error .exhausted) w = .back (.error .exhausted)) →
    (∀ outcome w, outcome ≠ .error .exhausted → GivesUp (next outcome w)) → GivesUp (.runs op next)

/-- A player whose conduct on every call is such. -/
def Player.GivesUp (player : Player τ σ) : Prop := ∀ call w, (player call w).GivesUp

variable {n : ℕ}

section Noted

variable {run : Op τ → Run τ (Chronicled τ σ) Reply} {op : Op τ} {w : World τ (Chronicled τ σ)}

omit [AddCommGroup τ] [LinearOrder τ] in
theorem World.begun_noted (run : Op τ → Run τ (Chronicled τ σ) Reply) (op : Op τ)
    (w : World τ (Chronicled τ σ)) :
    (noted run op w).2.begun = (run op (w.enter (.begins op))).2.begun :=
  (run op (w.enter (.begins op))).2.begun_enter (.ends op (run op (w.enter (.begins op))).1)

/-- An operation between its entries. -/
theorem World.Passes.noted (hw : w.rest.view.Gated w.clock)
    (hrun : (w.enter (.begins op)).Passes (fun _ => 0) (run op (w.enter (.begins op))).2) :
    w.Passes (fun _ => 0) (noted run op w).2 ∧ w.begun < (TunnelView.noted run op w).2.begun := by
  have henter : w.Passes (fun _ => 0) (w.enter (.begins op)) := .enter hw _
  have hend : (run op (w.enter (.begins op))).2.Passes (fun _ => 0)
      (TunnelView.noted run op w).2 := .enter hrun.gated _
  refine ⟨henter.trans (hrun.trans hend), ?_⟩
  have hbegun : (w.enter (.begins op)).begun = w.begun + 1 := w.begun_enter (.begins op)
  have hle := (hrun.trans hend).begun
  omega

/-- Conduct lasts if its operations do with one unit of fuel less. -/
theorem Lasts.play (hrun : ∀ op, op ≠ .stop .exhausted → Lasts n (fun _ => 0) (run op))
    {c : Conduct τ σ} (hc : c.GivesUp) : Lasts (n + 1) View.weight (c.play run) := by
  induction hc with
  | back houtcome => exact fun w hw => ⟨.refl hw, fun hr => absurd hr houtcome⟩
  | @books memory events next _ ih =>
    intro w hw
    obtain ⟨hpasses, hexhausted⟩ :=
      ih { w with rest.owner.memory.memory := memory, rest.events := events } hw
    exact ⟨⟨hpasses.gated, hpasses.diary, hpasses.begun, hpasses.quiet⟩, hexhausted⟩
  | @runs op next hop hgives _ ih =>
    intro w hw
    obtain ⟨hpasses, hexhausted⟩ := hrun op hop (w.enter (.begins op)) hw
    obtain ⟨hnoted, hlt⟩ := World.Passes.noted hw hpasses
    have hplay : (Conduct.runs op next).play run w = (next (noted run op w).1 (noted run op w).2).play
        run (noted run op w).2 := rfl
    rw [hplay]
    by_cases houtcome : (noted run op w).1 = .error .exhausted
    · rw [houtcome, hgives]
      refine ⟨hnoted.of_lt hlt, fun _ => ?_⟩
      have hbegun : (w.enter (.begins op)).begun = w.begun + 1 := w.begun_enter (.begins op)
      have hdone := hexhausted houtcome
      show w.begun + (n + 1) / 4 ≤ (noted run op w).2.begun
      rw [World.begun_noted]
      omega
    · obtain ⟨hrest, hdone⟩ := ih _ (noted run op w).2 houtcome _ hnoted.gated
      refine ⟨(hnoted.of_lt hlt).trans hrest, fun hr => ?_⟩
      have hfinal := hdone hr
      omega

end Noted

variable [IsOrderedAddMonoid τ] {player : Player τ σ}

/-- **Code outside lasts**, by induction on the depth of calls inside calls. -/
theorem Player.outside_lasts (hplayer : player.GivesUp) (n : ℕ) :
    (∀ s, Lasts n View.weight ((player.outside n).present s)) ∧
      ∀ c, Lasts n View.weight ((player.outside n).send c) := by
  induction n with
  | zero =>
    have hexhausted : ∀ call, Lasts 0 View.weight
        (Player.answer (fun _ _ => .back (.error .exhausted) : Player τ σ)
          (fun _ => .stop .exhausted) call) := by
      intro call w hw
      have henter : w.Passes View.weight (w.enter (.calls call)) := .enter hw _
      exact ⟨henter, fun _ => henter.begun⟩
    exact ⟨fun s => hexhausted (.shown s), fun c => hexhausted (.sent c)⟩
  | succ n ih =>
    have hanswer : ∀ call, Lasts (n + 1) View.weight
        (player.answer (Op.run (player.outside n) n) call) := by
      intro call w hw
      have henter : w.Passes View.weight (w.enter (.calls call)) := .enter hw _
      obtain ⟨hpasses, hexhausted⟩ := Lasts.play (fun _ hop => Lasts.op ih.1 ih.2 hop)
        (hplayer call (w.enter (.calls call))) _ henter.gated
      exact ⟨henter.trans hpasses,
        fun hr => (Nat.add_le_add_right henter.begun _).trans (hexhausted hr)⟩
    exact ⟨fun s => hanswer (.shown s), fun c => hanswer (.sent c)⟩

theorem Player.op_lasts (hplayer : player.GivesUp) (n : ℕ) {op : Op τ} (hop : op ≠ .stop .exhausted) :
    Lasts n (fun _ => 0) (op.run (player.outside n) n) :=
  .op (player.outside_lasts hplayer n).1 (player.outside_lasts hplayer n).2 hop

/-- A session, whether or not some of its operations are stopped. -/
theorem Player.session_passes (hplayer : player.GivesUp) (fuel : ℕ) (ops : List (Op τ))
    {w : World τ (Chronicled τ σ)} (hw : w.rest.view.Gated w.clock) :
    w.Passes (fun _ => 0) (player.session fuel ops w) := by
  have hop : ∀ (op : Op τ) {w : World τ (Chronicled τ σ)}, w.rest.view.Gated w.clock →
      w.Passes (fun _ => 0) (op.run (player.outside fuel) fuel w).2 := by
    intro op w hw
    by_cases hop : op = .stop .exhausted
    · rw [hop]
      exact .refl hw
    · exact (player.op_lasts hplayer fuel hop w hw).1
  induction ops generalizing w with
  | nil => exact .refl hw
  | cons op ops ih =>
    have hnoted : w.Passes (fun _ => 0) (noted (Op.run (player.outside fuel) fuel) op w).2 :=
      (World.Passes.noted hw (hop op (w := w.enter (.begins op)) hw)).1
    exact hnoted.trans (ih hnoted.gated)

/-- A state that was met: the present one, or that of an entry of the diary, and so also one in the
midst of an operation. Who is outside may remember anything then. -/
def World.Met (w v : World τ (Chronicled τ σ)) : Prop :=
  v = w ∨ ∃ e ∈ w.diary, v.rest.view = e.view ∧ v.clock = e.clock

omit [IsOrderedAddMonoid τ] in
theorem World.Passes.gated_of_met {weighs : View τ → ℕ} {w₀ w v : World τ (Chronicled τ σ)}
    (h : w₀.Passes weighs w) (hempty : w₀.diary = []) (hmet : w.Met v) :
    v.rest.view.Gated v.clock := by
  rcases hmet with rfl | ⟨e, he, hview, hclock⟩
  · exact h.gated
  · rw [hview, hclock]
    refine (h.diary e he).resolve_left ?_
    rw [hempty]
    exact List.not_mem_nil

/-- **Every operation comes to an end if code outside calls back only so many times.** In any state
that a session meets, also in the midst of an operation, and for any operation: if the operations
that are begun while it runs are bounded whatever the fuel, then with enough fuel it does not run
out. And in every movement of the clock from there, at any depth of calls inside calls, at most three
calls fire in a row without an operation that is begun in between; after three nothing is left on the
clock. -/
theorem Player.ends_if_called_back_finitely (hplayer : player.GivesUp) (d : Delays τ) (start : τ)
    (client : Client σ) (fuel : ℕ) (ops : List (Op τ)) :
    let w := player.session fuel ops (Session.start d start client.chronicled)
    ∀ v, w.Met v →
      (∀ op : Op τ, op ≠ .stop .exhausted →
        (∃ most, ∀ fuel, World.begun (op.run (player.outside fuel) fuel v).2 ≤ most) →
        ∃ enough, ∀ fuel, enough ≤ fuel →
          (op.run (player.outside fuel) fuel v).1 ≠ .error .exhausted) ∧
      ∀ (depth : ℕ) (v₁ v₂ : World τ (Chronicled τ σ)) earlier calls,
        Timed.Firings (View.fire (player.outside depth)) v earlier v₁ →
        Timed.Firings (View.fire (player.outside depth)) v₁ calls v₂ →
        v₂.begun = v₁.begun → calls.length + v₂.clock.pending ≤ 3 := by
  intro w v hmet
  have hstart : (View.opened d start).Gated { now := start } := .opened d start
  have hw : World.Passes (fun _ => 0) (Session.start d start client.chronicled) w :=
    player.session_passes hplayer fuel ops hstart
  have hv : v.rest.view.Gated v.clock := hw.gated_of_met rfl hmet
  constructor
  · rintro op hop ⟨most, hmost⟩
    refine ⟨4 * (most + 1), fun n hn hexhausted => ?_⟩
    have hbegun := (player.op_lasts hplayer n hop v hv).2 hexhausted
    have hle := hmost n
    omega
  · intro depth v₁ v₂ earlier calls hearlier hcalls hsame
    obtain ⟨hpasses, -⟩ := hearlier.quiet (player.outside_lasts hplayer depth).1 hv
    obtain ⟨hrest, hquiet⟩ := hcalls.quiet (player.outside_lasts hplayer depth).1 hpasses.gated
    have hcount := hquiet hsame
    have hheavy := v₁.rest.view.weight_le
    have hpending := hrest.gated.holds.pending_le
    omega

end Lasting

/-! ### Hosts -/

theorem Conduct.GivesUp.after {op : Op τ} {next : World τ (Chronicled τ σ) → Conduct τ σ}
    (hop : op ≠ .stop .exhausted) (hnext : ∀ w, (next w).GivesUp) :
    (Conduct.after op next).GivesUp := by
  refine .runs hop (fun _ => rfl) fun outcome w houtcome => ?_
  cases outcome with
  | ok reply => exact hnext w
  | error s => exact .back fun h => houtcome (congrArg Except.error (Except.error.inj h))

/-- A host that does not make it up that fuel runs out gives up where it does. -/
theorem Host.player_givesUp {host : Host τ σ}
    (h : ∀ memory call, (host memory call).2.ending ≠ some .exhausted ∧
      ∀ op ∈ (host memory call).2.ops, op ≠ .stop .exhausted) : host.player.GivesUp := by
  have hfollow : ∀ {ending : Option (Stop τ)} {ops : List (Op τ)}, ending ≠ some .exhausted →
      (∀ op ∈ ops, op ≠ .stop .exhausted) → (Conduct.follow ending ops : Conduct τ σ).GivesUp := by
    intro ending ops hending hops
    induction ops with
    | nil =>
      cases ending with
      | none => exact .back nofun
      | some s => exact .back fun hs => hending (congrArg some (Except.error.inj hs))
    | cons op ops ih =>
      obtain ⟨hop, hops⟩ := List.forall_mem_cons.mp hops
      exact .after hop fun _ => ih hops
  have hconduct : ∀ call w, (host.conduct call w).GivesUp := fun call w =>
    .books (hfollow (h _ _).1 (h _ _).2)
  intro call w
  unfold Host.player
  split
  · dsimp only
    have hrest : ∀ (l : Link) s w, (if l.overhears.statusAsReport then
        .back (.error (.failure (.unexpected Overhearing.reportListener "status")))
      else host.conduct (.shown s) w : Conduct τ σ).GivesUp := by
      intro l s w
      split
      · exact .back nofun
      · exact hconduct _ w
    split
    · split
      · exact .after nofun fun w => hrest _ _ w
      · exact hrest _ _ w
    · exact hconduct _ w
  · exact hconduct _ w

/-- A host that reports a disconnect for a new connection again when it is shown one, twice. -/
def Host.insisting : Host ℤ ℕ
  | times, .shown s =>
    if s.isReconnecting ∧ times < 2 then (times + 1, { ops := [.notify (.ready s)] })
    else (times, {})
  | times, .sent _ => (times, {})

/-- Operations after which an assumption runs out at 3000, and a disconnect for a new connection is
put off until 3050. -/
def Session.insistent : List (Op ℤ) :=
  [.expect (.text "connecting"), .advance 2900,
    .notify (.ready (.bare (.disconnecting .nothing))),
    .notify (.ready (.bare (.disconnecting .reconnect)))]

/-- The world after them. -/
def World.insisted : World ℤ (Chronicled ℤ ℕ) :=
  Host.insisting.player.session 9 Session.insistent
    (Session.start ⟨150, 3000⟩ 0 (Client.chronicled { memory := 0 }))

/-- The clock goes on without a limit. -/
def World.insists (fuel : ℕ) : Except (Stop ℤ) Reply × World ℤ (Chronicled ℤ ℕ) :=
  (Op.advanceNowhere none).run (Host.insisting.player.outside fuel) fuel World.insisted

theorem World.insists_begun (fuel : ℕ) : (insists fuel).2.begun ≤ insisted.begun + 2 := by
  have hless : ∀ fuel < 6, (insists fuel).2.begun ≤ insisted.begun + 2 := by decide +kernel
  rcases Nat.lt_or_ge fuel 6 with h | h
  · exact hless fuel h
  · obtain ⟨n, rfl⟩ := Nat.exists_eq_add_of_le' h
    have hbegun : (insists (n + 6)).2.begun = 6 := by cbv
    have hbefore : insisted.begun = 4 := by cbv
    rw [hbegun, hbefore]

/-- A call that falls due next fires. -/
def World.rings (t : Timer ℤ Alarm) (w : World ℤ (Chronicled ℤ ℕ)) :
    Except (Stop ℤ) Unit × World ℤ (Chronicled ℤ ℕ) :=
  View.fire (Host.insisting.player.outside 6) t { w with clock := (w.clock.popDue none).2 }

/-- The end of the assumption. -/
def Timer.lapse : Timer ℤ Alarm := ⟨3000, 0, .giveUp⟩

/-- The alarm of the report that was put off. -/
def Timer.recall : Timer ℤ Alarm := ⟨3050, 1, .deferred (.bare (.disconnecting .reconnect))⟩

/-- Two calls fire in a row, and leave one. -/
theorem World.insisted_firings : ∃ calls, ∃ v : World ℤ (Chronicled ℤ ℕ),
    Timed.Firings (View.fire (Host.insisting.player.outside 6)) World.insisted calls v ∧
      v.begun = World.insisted.begun ∧ calls.length = 2 ∧ v.clock.pending = 1 := by
  have hpop₁ : (World.insisted.clock.popDue none).1 = some Timer.lapse := by cbv
  have hfire₁ : (World.insisted.rings Timer.lapse).1 = .ok () := by cbv
  have hpop₂ : ((World.insisted.rings Timer.lapse).2.clock.popDue none).1 = some Timer.recall := by
    cbv
  have hfire₂ : ((World.insisted.rings Timer.lapse).2.rings Timer.recall).1 = .ok () := by cbv
  refine ⟨_, ((World.insisted.rings Timer.lapse).2.rings Timer.recall).2,
    .call (Prod.ext hpop₁ rfl) (Prod.ext hfire₁ rfl)
      (.call (Prod.ext hpop₂ rfl) (Prod.ext hfire₂ rfl) (.rest _)), ?_, rfl, ?_⟩
  · cbv
  · cbv

/-- The host calls back twice on the way, and the clock comes to rest. -/
theorem Player.ends_if_called_back_finitely_insisting :
    Host.insisting.player.GivesUp ∧
      (∀ fuel, (World.insists fuel).2.begun ≤ World.insisted.begun + 2) ∧
      (World.insists 6).2.begun = World.insisted.begun + 2 ∧
      (∃ enough, ∀ fuel, enough ≤ fuel → (World.insists fuel).1 ≠ .error .exhausted) ∧
      ∃ calls, ∃ v : World ℤ (Chronicled ℤ ℕ),
        Timed.Firings (View.fire (Host.insisting.player.outside 6)) World.insisted calls v ∧
          v.begun = World.insisted.begun ∧ calls.length = 2 ∧ v.clock.pending = 1 ∧
          calls.length + v.clock.pending ≤ 3 := by
  have hgives : Host.insisting.player.GivesUp := by
    refine Host.player_givesUp fun times call => ?_
    cases call with
    | shown s =>
      rw [Host.insisting]
      split <;> simp
    | sent c => simp [Host.insisting]
  obtain ⟨hends, hquiet⟩ := Player.ends_if_called_back_finitely hgives ⟨150, 3000⟩ 0
    { memory := 0 } 9 Session.insistent World.insisted (.inl rfl)
  refine ⟨hgives, World.insists_begun, by decide +kernel,
    hends (.advanceNowhere none) nofun ⟨_, World.insists_begun⟩, ?_⟩
  obtain ⟨calls, v, hfirings, hsame, hcalls, hpending⟩ := World.insisted_firings
  exact ⟨calls, v, hfirings, hsame, hcalls, hpending,
    hquiet 6 World.insisted v [] calls (.rest _) hfirings hsame⟩

end TunnelView
