import TunnelView.Proofs.Parts
import TunnelView.Proofs.Watch.Session

/-!
# How the runs of a view that is only looked at end

With a host that looks on, whatever a view does comes back: nobody interrupts, and failures of those
who are shown a status are held back. So the clock can be stopped on its way only because calls fire
on it without end. This holds for times of any kind, also where the order of times is not total.

Key definitions: `HaltsOnly`.
Key theorems: `View.commit_of_looksOn`, `HaltsOnly.fire`, `HaltsOnly.advanceTo`, `HaltsOnly.runOps`.
-/

namespace TunnelView

variable {τ ο σ α β : Type}

/-- A run that, as long as what is around the view is fine, keeps it so and is stopped in certain
ways only. -/
def HaltsOnly (fine : ο → Prop) (stops : Stop τ → Prop) (x : Run τ ο α) : Prop :=
  ∀ w, fine w.rest.owner → fine (x w).2.rest.owner ∧ ∀ s, (x w).1 = .error s → stops s

namespace HaltsOnly

variable {fine : ο → Prop} {stops stops' : Stop τ → Prop}

theorem mono {x : Run τ ο α} (hx : HaltsOnly fine stops x) (h : ∀ s, stops s → stops' s) :
    HaltsOnly fine stops' x :=
  fun w hw => ⟨(hx w hw).1, fun s hs => h s ((hx w hw).2 s hs)⟩

theorem eq_ok {x : Run τ ο Unit} (hx : HaltsOnly fine (fun _ => False) x) {w : World τ ο}
    (hw : fine w.rest.owner) : (x w).1 = .ok () := by
  cases hrun : (x w).1 with
  | error s => exact ((hx w hw).2 s hrun).elim
  | ok u => rfl

/-- A run that only changes the clock, the view and the events. -/
theorem of_owner_eq {x : Run τ ο α} (hok : ∀ w, ∃ a, (x w).1 = .ok a)
    (howner : ∀ w, (x w).2.rest.owner = w.rest.owner) : HaltsOnly fine stops x := by
  intro w hw
  obtain ⟨a, ha⟩ := hok w
  refine ⟨by rwa [howner], fun s hs => ?_⟩
  rw [ha] at hs
  contradiction

theorem pure (a : α) : HaltsOnly fine stops (Pure.pure a : Run τ ο α) :=
  of_owner_eq (fun _ => ⟨a, rfl⟩) fun _ => rfl

theorem stop {s : Stop τ} (h : stops s) : HaltsOnly fine stops (.stop s : Run τ ο α) := by
  refine fun w hw => ⟨hw, fun s' hs => ?_⟩
  obtain rfl := Except.error.inj hs
  exact h

theorem bind {x : Run τ ο α} {k : α → Run τ ο β} (hx : HaltsOnly fine stops x)
    (hk : ∀ a, HaltsOnly fine stops (k a)) : HaltsOnly fine stops (x >>= k) := by
  intro w hw
  obtain ⟨howner, hstops⟩ := hx w hw
  rw [Act.bind_apply]
  rcases hrun : x w with ⟨s | a, w₁⟩
  · rw [hrun] at howner hstops
    refine ⟨howner, fun s' hs => ?_⟩
    obtain rfl := Except.error.inj hs
    exact hstops s rfl
  · rw [hrun] at howner
    exact hk a w₁ howner

end HaltsOnly

/-! ### The view -/

section Views

variable {fine : ο → Prop} {stops : Stop τ → Prop} {out : Outside τ ο} {w : World τ ο}

/-- With onlookers, a status comes on show and is recorded, and that is all. -/
theorem View.commit_of_looksOn (hout : out.LooksOn fine) (hw : fine w.rest.owner) (s : Status) :
    ∃ owner events, View.commit out s w = (.ok (), { w with rest := {
        w.rest with view.status := s, owner, events } }) ∧ fine owner ∧
      Replay.commits events = (w.clock.now, s) :: Replay.commits w.rest.events := by
  let turned : World τ ο := { w with rest.view.status := s }
  let shown := turned.record (.log (.commit w.rest.view.status s))
  have hrun : View.commit out s w = guarded (View.showing.settle ()) (out.present s) shown := rfl
  obtain ⟨r, owner, events, hpresent, howner, hr, hcommits⟩ := hout.present s shown hw
  rw [hrun, guarded, hpresent]
  rcases hr with rfl | ⟨f, rfl⟩
  · exact ⟨owner, events, rfl, howner, hcommits⟩
  · exact ⟨owner, _, rfl, howner, hcommits⟩

variable [Zero τ] [Add τ] [LT τ] [DecidableLT τ] [LE τ] [DecidableLE τ]

namespace HaltsOnly

theorem viewParts (hout : out.LooksOn fine) :
    ViewParts (fun _ x _ => HaltsOnly fine stops x) out out where
  still hx := of_owner_eq (fun w => (hx w).imp fun _ ha => congrArg Prod.fst ha) fun w => by
    obtain ⟨a, ha⟩ := hx w
    rw [ha]
  bind := bind
  note _ := of_owner_eq (fun _ => ⟨(), rfl⟩) fun _ => rfl
  change _ := of_owner_eq (fun _ => ⟨(), rfl⟩) fun _ => rfl
  cancelTimeout := of_owner_eq (fun _ => ⟨(), rfl⟩) fun _ => rfl
  startTimeout _ _ := of_owner_eq (fun _ => ⟨(), rfl⟩) fun _ => rfl
  putOff _ _ := of_owner_eq (fun _ => ⟨(), rfl⟩) fun _ => rfl
  commit s := fun w hw => by
    obtain ⟨owner, events, hrun, howner, -⟩ := View.commit_of_looksOn hout hw s
    rw [hrun]
    exact ⟨howner, nofun⟩

theorem resetFallback : HaltsOnly fine stops (View.resetFallback : Run τ ο Unit) :=
  of_owner_eq (fun _ => ⟨(), rfl⟩) fun _ => rfl

variable (hout : out.LooksOn fine)

include hout

theorem assume (a : Assumption) : HaltsOnly fine stops (View.assume out a) :=
  (viewParts hout).assume a

variable [Sub τ]

theorem receive (s : Status) : HaltsOnly fine stops (View.receive out s) :=
  (viewParts hout).receive s

/-- **Whatever fires comes back.** -/
theorem fire (t : Timer τ Alarm) : HaltsOnly fine stops (View.fire out t) :=
  (viewParts hout).fire t

/-! ### Moving time -/

/-- Firing what is due can only go on for too long. -/
theorem drain (limit : Option τ) (fuel : ℕ) :
    HaltsOnly fine (· = .exhausted) (Timed.drain (View.fire out) limit fuel) := by
  induction fuel with
  | zero => exact .stop rfl
  | succ fuel ih =>
    refine (of_owner_eq (fun _ => ⟨_, rfl⟩) fun _ => rfl).bind fun t? => ?_
    cases t? with
    | none => exact .pure ()
    | some t => exact (HaltsOnly.fire hout t).bind fun _ => ih

theorem advanceTo (fuel : ℕ) (time : τ) :
    HaltsOnly fine (· = .exhausted) (Timed.advanceTo (View.fire out) fuel time) :=
  (drain hout (some time) fuel).bind fun _ => of_owner_eq (fun _ => ⟨_, rfl⟩) fun _ => rfl

theorem drainAll (most : ℤ) (n : ℕ) : HaltsOnly fine (· = .failure (.stillPending most))
    (Timed.drainAll (View.fire out) most n) := by
  induction n with
  | zero => exact .stop rfl
  | succ n ih =>
    refine (of_owner_eq (fun _ => ⟨_, rfl⟩) fun _ => rfl).bind fun t? => ?_
    cases t? with
    | none => exact .pure ()
    | some t => exact (HaltsOnly.fire hout t).bind fun _ => ih

end HaltsOnly
end Views

/-! ### Operations -/

section Operations

variable {fine : Client σ → Prop} {stops : Stop τ → Prop}

theorem HaltsOnly.silently {x : Run τ (Client σ) Unit} (hx : HaltsOnly fine stops x) :
    HaltsOnly fine stops (TunnelView.silently x) := hx.bind fun _ => .pure _

theorem HaltsOnly.runOps {run : Op τ → Run τ (Client σ) Reply} {ops : List (Op τ)}
    (h : ∀ op ∈ ops, HaltsOnly fine stops (run op)) :
    HaltsOnly fine stops (TunnelView.runOps run ops) := by
  induction ops with
  | nil => exact .pure ()
  | cons op ops ih =>
    obtain ⟨hop, hops⟩ := List.forall_mem_cons.mp h
    exact (hop.bind fun _ => .pure ()).bind fun _ => ih hops

end Operations
end TunnelView
