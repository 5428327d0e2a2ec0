import Mathlib.Data.Int.Notation
import Mathlib.Data.Nat.Notation
import TunnelView.Clock.Drain
import TunnelView.Proofs.Clock

/-!
# Runs that stay where something holds

A run may be stopped anywhere, so what is to hold after it has to hold wherever it may end. Such a
property goes through a run part by part, and through a movement of the clock if every firing keeps
it, from taking the call off the clock to its end.

Key definitions: `Stays`.
Key theorems: `Stays.bind`, `Stays.drain`, `Stays.advanceTo`.
-/

namespace TunnelView

variable {W τ α β : Type}

/-- Whether a run that starts where `I` holds ends where `I` holds, however it ends. -/
def Stays (I : W → Prop) (x : Act W τ α) : Prop := ∀ w, I w → I (x w).2

namespace Stays

variable {I : W → Prop}

theorem of_still {x : Act W τ α} (h : ∀ w, (x w).2 = w) : Stays I x := fun w hw => by rwa [h]

theorem pure (a : α) : Stays I (Pure.pure a : Act W τ α) := of_still fun _ => rfl

theorem stop (s : Stop τ) : Stays I (.stop s : Act W τ α) := of_still fun _ => rfl

/-- The second part of a run starts where the first comes to its end with a value. -/
theorem bind_at {x : Act W τ α} {k : α → Act W τ β} {w : W} (hx : I (x w).2)
    (hk : ∀ a w₁, x w = (.ok a, w₁) → I w₁ → I (k a w₁).2) : I ((x >>= k) w).2 := by
  rw [Act.bind_apply]
  rcases hrun : x w with ⟨stop | a, w₁⟩
  · rwa [hrun] at hx
  · rw [hrun] at hx
    exact hk a w₁ hrun hx

theorem bind {x : Act W τ α} {k : α → Act W τ β} (hx : Stays I x) (hk : ∀ a, Stays I (k a)) :
    Stays I (x >>= k) :=
  fun w hw => bind_at (hx w hw) fun a w₁ _ => hk a w₁

theorem discard {x : Act W τ α} (hx : Stays I x) : Stays I (Functor.discard x) :=
  hx.bind fun _ => .pure ()

theorem world {k : W → Act W τ α} (hk : ∀ w, Stays I (k w)) : Stays I (Act.world >>= k) :=
  (of_still fun _ => rfl).bind hk

end Stays

/-! ### Moving time -/

section Time

variable {κ ω : Type} [LT τ] [DecidableLT τ] [LE τ] [DecidableLE τ]

variable [Zero τ] [Add τ] {w : Timed (Clock τ κ) ω}

theorem Timed.popDue_apply {limit : Option τ} {t? : Option (Timer τ κ)} {clock : Clock τ κ}
    (h : w.clock.popDue limit = (t?, clock)) :
    Timed.popDue limit w = (.ok t?, { w with clock }) :=
  congrArg (fun r => (Except.ok r.1, { w with clock := r.2 })) h

/-- Where all that is due by a limit has fired, nothing more is. -/
theorem Timed.drain_idle {fire : Timed.Fire (Clock τ κ) ω τ κ} {limit : Option τ} {fuel : ℕ}
    {w' : Timed (Clock τ κ) ω} (h : Timed.drain fire limit fuel w = (.ok (), w')) :
    w'.clock.popDue limit = (none, w'.clock) := by
  induction fuel generalizing w with
  | zero => cases h
  | succ fuel ih =>
    rw [Timed.drain, Act.bind_apply] at h
    rcases hpop : w.clock.popDue limit with ⟨_ | t, clock⟩
    · rw [Timed.popDue_apply hpop] at h
      obtain rfl := (Prod.mk.inj h).2
      obtain rfl := Clock.popDue_of_none hpop
      show w.clock.tidied.popDue limit = (none, w.clock.tidied)
      rw [Clock.popDue_tidied, hpop]
    · rw [Timed.popDue_apply hpop] at h
      dsimp only at h
      rw [Act.bind_apply] at h
      rcases hfire : fire t { w with clock } with ⟨stop | u, w₁⟩
      · rw [hfire] at h
        cases h
      · rw [hfire] at h
        exact ih h

namespace Stays

variable {I : Timed (Clock τ κ) ω → Prop} {fire : Timed.Fire (Clock τ κ) ω τ κ}

/-- A look for what falls due either finds nothing or the call that is fired next. -/
theorem look {limit : Option τ} {next : Option (Timer τ κ) → Act (Timed (Clock τ κ) ω) τ Unit}
    (hnone : w.clock.popDue limit = (none, w.clock.tidied) →
      I (next none { w with clock := w.clock.tidied }).2)
    (hsome : ∀ t clock, w.clock.popDue limit = (some t, clock) →
      I (next (some t) { w with clock }).2) :
    I ((Timed.popDue limit >>= next) w).2 := by
  rw [Act.bind_apply]
  rcases hpop : w.clock.popDue limit with ⟨_ | t, clock⟩
  · rw [Timed.popDue_apply hpop]
    obtain rfl := Clock.popDue_of_none hpop
    exact hnone hpop
  · rw [Timed.popDue_apply hpop]
    exact hsome t clock hpop

variable (htidied : ∀ {w}, I w → I { w with clock := w.clock.tidied })
  (hfire : ∀ {w limit t clock}, I w → w.clock.popDue limit = (some t, clock) →
    I (fire t { w with clock }).2)

include htidied hfire

/-- Firing all that falls due by a limit, by induction on the firings. -/
theorem drain (limit : Option τ) (fuel : ℕ) : Stays I (Timed.drain fire limit fuel) := by
  induction fuel with
  | zero => exact .stop _
  | succ fuel ih =>
    intro w hw
    rw [Timed.drain]
    refine look (fun _ => htidied hw) fun t clock hpop => ?_
    exact bind_at (hfire hw hpop) fun _ w₁ _ => ih w₁

theorem drainAll (most : ℤ) (n : ℕ) : Stays I (Timed.drainAll fire most n) := by
  induction n with
  | zero => exact .stop _
  | succ n ih =>
    intro w hw
    rw [Timed.drainAll]
    refine look (fun _ => htidied hw) fun t clock hpop => ?_
    exact bind_at (hfire hw hpop) fun _ w₁ _ => ih w₁

theorem advanceNowhere (fuel : ℕ) (kind? : Option String) :
    Stays I (Timed.advanceNowhere fire fuel kind?) := by
  refine world fun w => ?_
  have hfail : ∀ f : τ → Failure τ, Stays I
      (Timed.now >>= fun now => (.fail (f now) : Act (Timed (Clock τ κ) ω) τ Unit)) :=
    fun f => (of_still fun _ => rfl).bind fun _ => .stop _
  cases kind? with
  | none => exact (drain htidied hfire none fuel).bind fun _ => hfail _
  | some kind =>
    cases Timekeeper.first? w.clock with
    | none => exact hfail _
    | some t => exact .stop _

section Past

variable (hpast : ∀ {w} t, I w → w.clock.popDue (some t) = (none, w.clock) →
  I { w with clock := w.clock.moveTo t })

include hpast

/-- When the clock goes to a time, nothing is due by it any more. -/
theorem advanceTo_past (fuel : ℕ) (time : τ) : Stays I (Timed.advanceTo fire fuel time) := by
  intro w hw
  refine bind_at (drain htidied hfire (some time) fuel w hw) fun u w₁ hrun hw₁ => ?_
  exact hpast time hw₁ (Timed.drain_idle hrun)

theorem advance_past (fuel : ℕ) (delta : τ) : Stays I (Timed.advance fire fuel delta) := by
  unfold Timed.advance
  by_cases hdelta : delta < 0
  · rw [if_pos hdelta]
    exact .stop _
  · rw [if_neg hdelta]
    refine (of_still fun _ => rfl).bind fun now => ?_
    exact advanceTo_past htidied hfire hpast fuel (now + delta)

end Past

variable (hmove : ∀ {w} t, I w → I { w with clock := w.clock.moveTo t })

include hmove

theorem advanceTo (fuel : ℕ) (time : τ) : Stays I (Timed.advanceTo fire fuel time) :=
  advanceTo_past htidied hfire (fun t hw _ => hmove t hw) fuel time

theorem advance (fuel : ℕ) (delta : τ) : Stays I (Timed.advance fire fuel delta) :=
  advance_past htidied hfire (fun t hw _ => hmove t hw) fuel delta

end Stays
end Time
end TunnelView
