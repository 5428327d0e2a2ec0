import Mathlib.Data.Nat.Notation
import TunnelView.Session

/-!
# Runs, part by part

What a view does, and what an operation does, is put together from a few parts. A relation of runs
that goes from parts to wholes holds of two operations if it holds of their parts, so what can be
done is gone through once, for all such relations. A property of runs is a relation that ignores the
second run.

The two runs may call different code outside, and may have different fuel.

Key definitions: `Compositional`, `ViewParts`, `OpParts`.
Key theorems: `ViewParts.receive`, `ViewParts.fire`, `OpParts.op`.
-/

namespace TunnelView

variable {τ ο σ : Type}

/-- A relation that goes from the parts of runs to the whole, and holds of what only reads. -/
structure Compositional (R : ∀ ⦃α : Type⦄, Run τ ο α → Run τ ο α → Prop) : Prop where
  still : ∀ {α : Type} {x : Run τ ο α}, (∀ w, ∃ a, x w = (.ok a, w)) → R x x
  bind : ∀ {α β : Type} {x y : Run τ ο α} {k l : α → Run τ ο β},
    R x y → (∀ a, R (k a) (l a)) → R (x >>= k) (y >>= l)

namespace Compositional

variable {R : ∀ ⦃α : Type⦄, Run τ ο α → Run τ ο α → Prop} (hR : Compositional R)

include hR

theorem pure {α : Type} (a : α) : R (Pure.pure a : Run τ ο α) (Pure.pure a) :=
  hR.still fun _ => ⟨a, rfl⟩

theorem current {α : Type} {k l : View τ → Run τ ο α} (h : ∀ v, R (k v) (l v)) :
    R (View.current >>= k) (View.current >>= l) :=
  hR.bind (hR.still fun w => ⟨w.rest.view, rfl⟩) h

end Compositional

/-! ### What a view does -/

section Views

variable [Zero τ] [Add τ] [LT τ] [DecidableLT τ] [LE τ] [DecidableLE τ]

/-- A relation that holds of the parts of what a view does. -/
structure ViewParts (R : ∀ ⦃α : Type⦄, Run τ ο α → Run τ ο α → Prop) (out out' : Outside τ ο) :
    Prop extends Compositional R where
  note : ∀ n, R (note n) (note n)
  change : ∀ f, R (View.change f) (View.change f)
  cancelTimeout : R View.cancelTimeout View.cancelTimeout
  startTimeout : ∀ a delay, R (View.startTimeout a delay) (View.startTimeout a delay)
  putOff : ∀ a delay, R (View.putOff a delay) (View.putOff a delay)
  commit : ∀ s, R (View.commit out s) (View.commit out' s)

namespace ViewParts

variable {R : ∀ ⦃α : Type⦄, Run τ ο α → Run τ ο α → Prop} {out out' : Outside τ ο}
  (h : ViewParts R out out')

include h

theorem resetFallback : R View.resetFallback View.resetFallback :=
  h.bind h.cancelTimeout fun _ => h.change _

theorem assume (a : Assumption) : R (View.assume out a) (View.assume out' a) := by
  refine h.current fun v => ?_
  split
  · exact h.note _
  · refine h.bind (h.change _) fun _ => h.bind (h.commit _) fun _ => h.current fun v => ?_
    exact h.bind (h.note _) fun _ => h.startTimeout _ _

theorem reveal (s : Status) : R (View.reveal out s) (View.reveal out' s) := by
  unfold View.reveal
  split
  · exact h.bind (h.assume _) fun _ => h.change _
  · exact h.commit s

theorem act (s : Status) : R (View.act out s) (View.act out' s) := by
  refine h.current fun v => ?_
  split
  · exact h.reveal s
  · split
    · exact h.bind (h.note _) fun _ => h.bind h.resetFallback fun _ => h.reveal s
    · exact h.bind (h.note _) fun _ => h.change _

theorem giveUp : R (View.giveUp out) (View.giveUp out') := by
  refine h.current fun v => ?_
  split
  · exact h.bind (h.change _) fun _ => h.bind (h.note _) fun _ => h.commit _
  · exact h.pure ()

variable [Sub τ]

theorem receive (s : Status) : R (View.receive out s) (View.receive out' s) := by
  refine h.current fun v => ?_
  split
  · exact h.pure ()
  · refine h.bind (h.still fun w => ⟨w.clock.now, rfl⟩) fun now => ?_
    split
    · exact h.bind (h.note _) fun _ => h.putOff _ _
    · exact h.bind (h.change _) fun _ => h.act s

theorem fire (t : Timer τ Alarm) : R (View.fire out t) (View.fire out' t) := by
  refine h.current fun v => ?_
  split
  all_goals
    split
    · exact h.pure ()
  · exact h.bind (h.change _) fun _ => h.receive _
  · exact h.bind (h.change _) fun _ => h.giveUp

end ViewParts
end Views

/-! ### Operations -/

section Operations

namespace Compositional

variable {R : ∀ ⦃α : Type⦄, Run τ (Client σ) α → Run τ (Client σ) α → Prop} (hR : Compositional R)

include hR

theorem silently {x y : Run τ (Client σ) Unit} (h : R x y) :
    R (TunnelView.silently x) (TunnelView.silently y) :=
  hR.bind h fun _ => hR.pure _

theorem withLink {k l : Link → Run τ (Client σ) Reply} (h : ∀ link, R (k link) (l link)) :
    R (TunnelView.withLink k) (TunnelView.withLink l) := by
  refine hR.bind (hR.still fun w => ⟨w.rest.owner.link, rfl⟩) fun l? => ?_
  cases l? with
  | none => exact hR.pure _
  | some link => exact h link

variable [Zero τ] [Add τ] [LT τ] [DecidableLT τ] [LE τ] [DecidableLE τ]

/-- A link that hears a status hears of a loss, perhaps, and may fail. -/
theorem overhear (hfail : ∀ f, R (.fail f : Run τ (Client σ) Unit) (.fail f))
    (hlose : R Link.lose Link.lose) (l : Link) : R l.overhear l.overhear := by
  have hrest : ∀ b : Bool, R
      (if b then .fail (.unexpected Overhearing.reportListener "status") else Pure.pure ())
      (if b then .fail (.unexpected Overhearing.reportListener "status") else Pure.pure ()) := by
    intro b
    cases b with
    | false => exact hR.pure ()
    | true => exact hfail _
  unfold Link.overhear
  split
  · cases l.overhears.statusAsLoss with
    | false => exact hrest l.overhears.statusAsReport
    | true => exact hR.bind hlose fun _ => hrest l.overhears.statusAsReport
  · exact hR.pure ()

end Compositional

variable [Zero τ] [Add τ] [Sub τ] [LT τ] [DecidableLT τ] [LE τ] [DecidableLE τ]

/-- A relation that holds of the parts of operations, with fuel `n` and `m` for the firings, the
sending of commands apart. -/
structure OpParts (R : ∀ ⦃α : Type⦄, Run τ (Client σ) α → Run τ (Client σ) α → Prop)
    (out out' : Outside τ (Client σ)) (n m : ℕ) : Prop extends Compositional R where
  fail : ∀ {α : Type} (f : Failure τ), R (.fail f : Run τ (Client σ) α) (.fail f)
  note : ∀ e, R (note e) (note e)
  link : ∀ f, R (Link.change f) (Link.change f)
  reset : R View.resetFallback View.resetFallback
  close : R View.close View.close
  receive : ∀ s, R (View.receive out s) (View.receive out' s)
  assume : ∀ a, R (View.assume out a) (View.assume out' a)
  advanceTo : ∀ time,
    R (Timed.advanceTo (View.fire out) n time) (Timed.advanceTo (View.fire out') m time)
  advanceNowhere : ∀ kind?,
    R (Timed.advanceNowhere (View.fire out) n kind?) (Timed.advanceNowhere (View.fire out') m kind?)
  idle : ∀ most, R (Timed.runUntilIdle (View.fire out) most) (Timed.runUntilIdle (View.fire out') most)

namespace OpParts

variable {R : ∀ ⦃α : Type⦄, Run τ (Client σ) α → Run τ (Client σ) α → Prop}
  {out out' : Outside τ (Client σ)} {n m : ℕ} (h : OpParts R out out' n m)

include h

theorem advance (delta : τ) :
    R (Timed.advance (View.fire out) n delta) (Timed.advance (View.fire out') m delta) := by
  unfold Timed.advance
  split
  · exact h.fail _
  · exact h.bind (h.still fun w => ⟨w.clock.now, rfl⟩) fun _ => h.advanceTo _

theorem lose : R Link.lose Link.lose :=
  h.bind (h.note _) fun _ => h.bind (h.link _) fun _ => h.reset

theorem handle (r : Report) : R (Link.handle out r) (Link.handle out' r) := by
  unfold Link.handle
  cases r.read with
  | error fault =>
    dsimp only
    split
    · exact h.bind (h.note _) fun _ => h.pure _
    · exact h.fail _
  | ok s => exact h.bind (h.link _) fun _ => h.bind (h.receive s) fun _ => h.pure _

theorem takeIn (r : Report) (l : Link) : R (l.takeIn out r) (l.takeIn out' r) := by
  have hhandle : R (discard (Link.handle out r)) (discard (Link.handle out' r)) :=
    h.bind (h.handle r) fun _ => h.pure ()
  unfold Link.takeIn
  split
  · split
    · exact h.bind h.lose fun _ => hhandle
    · exact hhandle
  · exact h.pure ()

theorem command {c : Command} (hsend : R (Link.send out c) (Link.send out' c)) (l : Link) :
    R (Link.command out c l) (Link.command out' c l) := by
  refine h.bind (h.still fun w => ⟨w, rfl⟩) fun w => ?_
  dsimp only
  split
  · exact h.bind (h.assume _) fun _ => h.bind hsend fun _ => h.pure _
  · exact h.bind (h.note _) fun _ => h.pure _

/-- **What holds of its parts holds of every operation.** -/
theorem op {op : Op τ} (hsend : ∀ c, op = .command c → R (Link.send out c) (Link.send out' c))
    (hstop : ∀ s, op = .stop s → R (.stop s : Run τ (Client σ) Reply) (.stop s)) :
    R (op.run out n) (op.run out' m) := by
  cases op with
  | notify r =>
    simp only [Op.run]
    cases r.read with
    | error fault => exact h.fail _
    | ok s => exact h.silently (h.receive s)
  | expect kind =>
    refine h.silently ?_
    unfold View.expect
    cases Assumption.ofValue? kind with
    | none => exact h.fail _
    | some a => exact h.assume a
  | reset => exact h.silently h.reset
  | close => exact h.silently (h.bind (h.link _) fun _ => h.close)
  | closeView => exact h.silently h.close
  | advance delta => exact h.silently (h.advance delta)
  | advanceTo time => exact h.silently (h.advanceTo time)
  | advanceNowhere kind? => exact h.silently (h.advanceNowhere kind?)
  | idle most => exact h.silently (h.idle most)
  | ask reachable loggedIn => exact h.bind (h.still fun w => ⟨w, rfl⟩) fun _ => h.pure _
  | command c =>
    exact h.withLink fun l => h.bind (h.command (hsend c rfl) l) fun _ => h.pure _
  | handle r => exact h.withLink fun _ => h.bind (h.handle r) fun _ => h.pure _
  | publish r => exact h.withLink fun l => h.silently (h.takeIn r l)
  | lose => exact h.withLink fun _ => h.silently h.lose
  | publishLoss =>
    refine h.withLink fun l => ?_
    dsimp only
    split
    · exact h.bind h.lose fun _ => h.pure _
    · exact h.pure _
  | logIn flag => exact h.withLink fun _ => h.silently (h.link _)
  | stop s => exact hstop s rfl

end OpParts
end Operations
end TunnelView
