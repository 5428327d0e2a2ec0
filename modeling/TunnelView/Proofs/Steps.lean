import Mathlib.Logic.Relation
import TunnelView.Proofs.Reentry.Calls

/-!
# What a view does, step by step

Whatever a view does is a series of steps, each of which changes one thing. Code outside is called
by one of them only, which shows a status, and that step is taken on an open view alone. An
operation may be stopped after any step, be it by a failure, by an interrupt or for want of fuel. So
what every step keeps holds at any moment, and after an operation however it ended.

Key definitions: `World.Step`, `World.Path`, `Steady`.
Key theorems: `World.Path.receive`, `World.Path.fire`, `Steady.op`.
-/

namespace TunnelView

variable {τ ο σ α β : Type}

/-! ### Runs that stay where something holds -/

namespace Stays

variable {I : World τ (Client σ) → Prop}

theorem silently {x : Run τ (Client σ) Unit} (hx : Stays I x) : Stays I (TunnelView.silently x) :=
  hx.bind fun _ => .pure _

theorem compositional : Compositional fun _ x _ => Stays I x where
  still hx := of_still fun w => by
    obtain ⟨a, ha⟩ := hx w
    rw [ha]
  bind := bind

/-- A failure to send a command names the command, and changes nothing else. -/
theorem send {out : Outside τ (Client σ)} {c : Command} {w : World τ (Client σ)}
    (h : I (out.send c w).2) : I (Link.send out c w).2 := by
  rw [Link.send]
  rcases hrun : out.send c w with ⟨(f | message | _) | u, w₁⟩
  all_goals
    rw [hrun] at h
    exact h

end Stays

/-! ### Steps -/

section Steps

variable [Zero τ] [Add τ] [LT τ] [DecidableLT τ] [LE τ] [DecidableLE τ]

/-- One thing that a view does, where `out` is the code outside. -/
inductive World.Step (out : Outside τ ο) : World τ ο → World τ ο → Prop
  | notes (w) (n : Note τ) : Step out w (w.record (.log n))
  | acts (w) (time : τ) : Step out w { w with rest.view.lastActed := time }
  | keeps (w) (s : Option Status) : Step out w { w with rest.view.fallback := s }
  | shuts (w) : Step out w { w with rest.view.closed := true }
  /-- A status comes on show on an open view only, -/
  | turns {w} (s : Status) : w.rest.view.closed = false →
    Step out w { w with rest.view.status := s }
  /-- and whoever is shown it is called while the view is open. -/
  | shows {w} (s : Status) : w.rest.view.closed = false → w.rest.view.status = s →
    Step out w (out.present s w).2
  | cancels (w) (a : Alarm) : Step out w { w with
      clock := ((a.slot w.rest.view).cancel w.clock).2
      rest.view := a.put ((a.slot w.rest.view).cancel w.clock).1 w.rest.view }
  | schedules (w) (a : Alarm) (delay : τ) : Step out w { w with
      clock := ((a.slot w.rest.view).schedule delay a w.clock).2
      rest.view := a.put ((a.slot w.rest.view).schedule delay a w.clock).1 w.rest.view }
  | moves (w) (time : τ) : Step out w { w with clock := w.clock.moveTo time }
  | tidies (w) : Step out w { w with clock := w.clock.tidied }
  /-- A call falls due that its slot holds. -/
  | fires {w limit t clock} : w.clock.popDue limit = (some t, clock) →
    (t.call.slot w.rest.view).armed = some t.serial →
    Step out w { w with clock, rest.view := w.rest.view.without t.call }
  /-- A call falls due that no slot holds. -/
  | misses {w limit t clock} : w.clock.popDue limit = (some t, clock) →
    (t.call.slot w.rest.view).armed ≠ some t.serial → Step out w { w with clock }

/-- A series of steps. -/
abbrev World.Path (out : Outside τ ο) : World τ ο → World τ ο → Prop :=
  Relation.ReflTransGen (World.Step out)

namespace World.Path

variable {out : Outside τ ο} {w : World τ ο}

theorem notes (notes : List (Note τ)) (w : World τ ο) :
    Path out w (notes.foldl (fun w n => w.record (.log n)) w) := by
  induction notes generalizing w with
  | nil => exact .refl
  | cons n notes ih => exact .head (.notes w n) (ih _)

theorem commit (s : Status) (hc : w.rest.view.closed = false) :
    Path out w (View.commit out s w).2 := by
  let turned : World τ ο := { w with rest.view.status := s }
  let shown := turned.record (.log (.commit w.rest.view.status s))
  have hshows : World.Step out shown (out.present s shown).2 := .shows s hc rfl
  refine .head (.turns s hc) (.head (.notes turned _) (.head hshows ?_))
  exact notes _ _

theorem cancelDeferral (w : World τ ο) : Path out w (View.cancelDeferral w).2 :=
  .single (.cancels w (.deferred (.bare .disconnected)))

theorem cancelTimeout (w : World τ ο) : Path out w (View.cancelTimeout w).2 :=
  .single (.cancels w .giveUp)

theorem putOff (s : Status) (delay : τ) (w : World τ ο) :
    Path out w (View.putOff (.deferred s) delay w).2 :=
  .single (.schedules w (.deferred s) delay)

theorem resetFallback (w : World τ ο) : Path out w (View.resetFallback w).2 :=
  .head (.cancels w .giveUp) (.single (.keeps _ none))

theorem assume (a : Assumption) (w : World τ ο) : Path out w (View.assume out a w).2 := by
  cases hc : w.rest.view.closed with
  | true =>
    rw [View.assume_of_closed hc]
    exact .single (.notes w _)
  | false =>
    let kept : World τ ο := { w with rest.view.fallback := some w.rest.view.status }
    rw [View.assume_apply hc]
    have hcommit : Path out w (View.commit out a.status kept).2 :=
      .head (.keeps w (some w.rest.view.status)) (commit a.status hc)
    refine Stays.bind_at (I := Path out w) hcommit fun _ w₁ _ hw₁ => ?_
    let noted := w₁.record (.log (.expecting a w₁.rest.view.fallback w₁.rest.view.delays.patience))
    exact (hw₁.tail (.notes w₁ _)).tail (.schedules noted .giveUp _)

theorem reveal (s : Status) (hc : w.rest.view.closed = false) :
    Path out w (View.reveal out s w).2 := by
  unfold View.reveal
  by_cases hs : s.isReconnecting
  · rw [if_pos hs]
    refine Stays.bind_at (I := Path out w) (assume _ w) fun _ w₁ _ hw₁ => ?_
    exact hw₁.tail (.keeps w₁ (some s))
  · rw [if_neg hs]
    exact commit s hc

theorem act (s : Status) (hc : w.rest.view.closed = false) : Path out w (View.act out s w).2 := by
  rw [View.act, View.current_bind]
  by_cases hf : w.rest.view.fallback.isNone
  · rw [if_pos hf]
    exact reveal s hc
  · rw [if_neg hf]
    by_cases hs : w.rest.view.settles s
    · rw [if_pos hs]
      let noted := w.record (.log (.confirmed s))
      have hreset : Path out w (View.resetFallback noted).2 :=
        .head (.notes w _) (resetFallback noted)
      exact hreset.trans (reveal s hc)
    · rw [if_neg hs]
      exact .head (.notes w (.stored s)) (.single (.keeps _ (some s)))

theorem close (w : World τ ο) : Path out w (View.close w).2 := by
  cases hc : w.rest.view.closed with
  | true =>
    rw [View.close_of_closed hc]
  | false =>
    rw [View.close_of_open hc]
    have hshuts : World.Step out w { w with rest.view.closed := true } := .shuts w
    have hdeferral := (cancelDeferral { w with rest.view.closed := true }).head hshuts
    exact (hdeferral.trans (cancelTimeout _)).tail (.keeps _ none)

theorem giveUp (w : World τ ο) : Path out w (View.giveUp out w).2 := by
  rw [View.giveUp_apply]
  cases hc : w.rest.view.closed with
  | true => exact .refl
  | false =>
    cases hf : w.rest.view.fallback with
    | none => exact .refl
    | some s =>
      let dropped : World τ ο := { w with rest.view.fallback := none }
      exact .head (.keeps w none) (.head (.notes dropped (.reverting s)) (commit s hc))

variable [Sub τ]

theorem receive (s : Status) (w : World τ ο) : Path out w (View.receive out s w).2 := by
  rw [View.receive_apply]
  by_cases hc : w.rest.view.closed
  · rw [if_pos hc]
  · rw [if_neg hc]
    have hopen : w.rest.view.closed = false := Bool.eq_false_iff.mpr hc
    by_cases hs : w.rest.view.tooSoon w.clock.now
    · rw [if_pos hs]
      exact .head (.notes w _) (putOff s _ _)
    · rw [if_neg hs]
      exact .head (.acts w w.clock.now) (act s hopen)

/-- A call that falls due, from taking it off the clock to its end. -/
theorem fire {limit : Option τ} {t : Timer τ Alarm} {clock : Clock τ Alarm}
    (hpop : w.clock.popDue limit = (some t, clock)) :
    Path out w (View.fire out t { w with clock }).2 := by
  rw [View.fire_apply]
  by_cases hslot : (t.call.slot w.rest.view).armed = some t.serial
  · rw [if_pos hslot]
    have hfires : World.Step out w { w with clock, rest.view := w.rest.view.without t.call } :=
      .fires hpop hslot
    rcases t with ⟨deadline, serial, s | _⟩
    · exact .head hfires (receive s _)
    · exact .head hfires (giveUp _)
  · rw [if_neg hslot]
    exact .single (.misses hpop hslot)

end World.Path
end Steps

/-! ### Operations -/

section Operations

variable [Zero τ] [Add τ] [LT τ] [DecidableLT τ] [LE τ] [DecidableLE τ]

/-- What holds at any moment, if it holds at first: every step keeps it, and it does not depend on
what a link knows. -/
structure Steady (out : Outside τ (Client σ)) (I : World τ (Client σ) → Prop) : Prop where
  step : ∀ {w w'}, I w → World.Step out w w' → I w'
  link : ∀ {w} (f : Link → Link), I w → I { w with rest.owner.link := w.rest.owner.link.map f }

namespace Steady

variable {out : Outside τ (Client σ)} {I : World τ (Client σ) → Prop} {w w' : World τ (Client σ)}
  (hI : Steady out I)

include hI

theorem path (hw : I w) (h : World.Path out w w') : I w' := by
  induction h with
  | refl => exact hw
  | tail _ hstep ih => exact hI.step ih hstep

theorem of_path {x : Run τ (Client σ) α} (h : ∀ w, World.Path out w (x w).2) : Stays I x :=
  fun w hw => hI.path hw (h w)

variable [Sub τ]

theorem opParts (fuel : ℕ) : OpParts (fun _ x _ => Stays I x) out out fuel fuel :=
  have htidied : ∀ {w}, I w → I { w with clock := w.clock.tidied } :=
    fun hw => hI.step hw (.tidies _)
  have hmove : ∀ {w} t, I w → I { w with clock := w.clock.moveTo t } :=
    fun t hw => hI.step hw (.moves _ t)
  have hfire : ∀ {w limit t clock}, I w → w.clock.popDue limit = (some t, clock) →
      I (View.fire out t { w with clock }).2 := fun hw hpop => hI.path hw (.fire hpop)
  { toCompositional := Stays.compositional
    fail := fun _ => .stop _
    note := fun n => hI.of_path fun w => .single (.notes w n)
    link := fun f _ hw => hI.link f hw
    reset := hI.of_path .resetFallback
    close := hI.of_path .close
    receive := fun s => hI.of_path (.receive s)
    assume := fun a => hI.of_path (.assume a)
    advanceTo := Stays.advanceTo htidied hfire hmove fuel
    advanceNowhere := Stays.advanceNowhere htidied hfire fuel
    idle := fun most => Stays.drainAll htidied hfire most _ }

/-- **What is steady is kept by every operation**, however it ends, user actions apart. -/
theorem op (fuel : ℕ) {op : Op τ} (hop : ∀ c, op ≠ .command c) : Stays I (op.run out fuel) :=
  (hI.opParts fuel).op (fun c hc => absurd hc (hop c)) fun s _ => .stop s

/-- The same for user actions, if whoever is sent a command keeps it too. -/
theorem userAction (hsend : ∀ c, Stays I (out.send c)) (fuel : ℕ) (c : Command) :
    Stays I ((Op.command c).run out fuel) :=
  (hI.opParts fuel).op (fun c _ w hw => Stays.send (hsend c w hw)) fun s _ => .stop s

end Steady

/-- The world after the steps of a session, whether or not some of them were stopped. -/
def Session.run [Sub τ] (host : Host τ σ) (fuel : ℕ) (ops : List (Op τ)) (w : World τ (Client σ)) :
    World τ (Client σ) :=
  ops.foldl (fun w op => (Session.step host fuel op w).2.2) w

theorem Session.run_nil [Sub τ] (host : Host τ σ) (fuel : ℕ) (w : World τ (Client σ)) :
    Session.run host fuel [] w = w :=
  rfl

theorem Session.run_cons [Sub τ] (host : Host τ σ) (fuel : ℕ) (op : Op τ) (ops : List (Op τ))
    (w : World τ (Client σ)) : Session.run host fuel (op :: ops) w =
      Session.run host fuel ops (Session.step host fuel op w).2.2 :=
  rfl

end Operations
end TunnelView
