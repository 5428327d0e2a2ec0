import TunnelView.Proofs.Abreast.Clock

/-!
# Two runs abreast

A view goes by conditions and by the calls on its clock. It never looks at the details of a status,
nor at what stands around it. So two runs that are told the same but for statuses, from two worlds
that are the same but for statuses, end in the same way in two such worlds again, as long as code
outside does, and what stands around the two stays related.

Which statuses may stand for each other is a parameter (`Kindred`), and so is how things around two
views are related (`Around`).

Key definitions: `View.Alike`, `Abreast`, `InStep`, `Outside.Parallels`.
Key theorems: `InStep.bind_to`, `Abreast.receive`, `Abreast.fire`, `Abreast.drain`.
-/

namespace TunnelView

variable {τ ο ο' α α' β β' : Type}

/-! ### What a view cannot tell apart -/

/-- The same view but for the statuses in it. -/
structure View.Alike (R : Status → Status → Prop) (v v' : View τ) : Prop where
  delays : v.delays = v'.delays
  lastActed : v.lastActed = v'.lastActed
  status : R v.status v'.status
  fallback : Option.Rel R v.fallback v'.fallback
  closed : v.closed = v'.closed
  deferral : v.deferral = v'.deferral
  timeout : v.timeout = v'.timeout

/-- The same note of what a view or a link does, but for statuses and for what is wrong with a
report that cannot be read. -/
inductive Note.Alike (R : Status → Status → Prop) (F : Report.Fault → Report.Fault → Prop) :
    Note τ → Note τ → Prop
  | commit {p p' s s' : Status} (hp : R p p') (hs : R s s') : Alike R F (.commit p s) (.commit p' s')
  | debouncing {s s' : Status} (h : R s s') : Alike R F (.debouncing s) (.debouncing s')
  | confirmed {s s' : Status} (h : R s s') : Alike R F (.confirmed s) (.confirmed s')
  | stored {s s' : Status} (h : R s s') : Alike R F (.stored s) (.stored s')
  | expecting (a : Assumption) {f f' : Option Status} (h : Option.Rel R f f') (patience : τ) :
    Alike R F (.expecting a f patience) (.expecting a f' patience)
  | closedTo (a : Assumption) : Alike R F (.closedTo a) (.closedTo a)
  | reverting {s s' : Status} (h : R s s') : Alike R F (.reverting s) (.reverting s')
  | dropped {f f' : Report.Fault} (h : F f f') : Alike R F (.dropped f) (.dropped f')
  | serviceLost : Alike R F .serviceLost .serviceLost
  | refused (c : Command) {s s' : Status} (h : R s s') : Alike R F (.refused c s) (.refused c s')

/-- How what stands around two views is related: their owners, and the events so far. -/
abbrev Around (τ ο ο' : Type) := ο → List (Event τ) → ο' → List (Event τ) → Prop

/-- Two worlds that are the same but for statuses, around which things are related. -/
structure Abreast (R : Status → Status → Prop) (Q : Around τ ο ο') (w : World τ ο)
    (w' : World τ ο') : Prop where
  clock : w.clock.Alike R w'.clock
  view : w.rest.view.Alike R w'.rest.view
  around : Q w.rest.owner w.rest.events w'.rest.owner w'.rest.events

/-- The same stop, or two values that are related. -/
inductive SameEnd (A : α → α' → Prop) : Except (Stop τ) α → Except (Stop τ) α' → Prop
  | ok {a : α} {a' : α'} (h : A a a') : SameEnd A (.ok a) (.ok a')
  | error (s : Stop τ) : SameEnd A (.error s) (.error s)

/-- Two runs that end in the same way, abreast. -/
structure InStep (A : α → α' → Prop) (R : Status → Status → Prop) (Q : Around τ ο ο')
    (r : Except (Stop τ) α × World τ ο) (r' : Except (Stop τ) α' × World τ ο') : Prop where
  outcome : SameEnd A r.1 r'.1
  abreast : Abreast R Q r.2 r'.2

/-- Code outside that looks the same from behind the guard around it when it is shown statuses that
may stand for each other. -/
def Outside.Parallels (R : Status → Status → Prop) (Q : Around τ ο ο') (out : Outside τ ο)
    (out' : Outside τ ο') : Prop :=
  ∀ {s s'}, R s s' → ∀ {w w'}, Abreast R Q w w' →
    InStep Eq R Q (guarded (View.showing.settle ()) (out.present s) w)
      (guarded (View.showing.settle ()) (out'.present s') w')

theorem SameEnd.eq {r r' : Except (Stop τ) α} (h : SameEnd Eq r r') : r = r' := by
  cases h with
  | ok h => rw [h]
  | error s => rfl

/-! ### Runs -/

namespace InStep

variable {A : α → α' → Prop} {B : β → β' → Prop} {R : Status → Status → Prop} {Q : Around τ ο ο'}
  {w : World τ ο} {w' : World τ ο'}

theorem stop (h : Abreast R Q w w') (s : Stop τ) :
    InStep A R Q ((.stop s : Run τ ο α) w) ((.stop s : Run τ ο' α') w') :=
  ⟨.error s, h⟩

theorem pure (h : Abreast R Q w w') (a : α) :
    InStep Eq R Q ((Pure.pure a : Run τ ο α) w) ((Pure.pure a : Run τ ο' α) w') :=
  ⟨.ok rfl, h⟩

/-- Runs in step go on from where they end, to whatever is said of two results. -/
theorem bind_to {P : Except (Stop τ) β × World τ ο → Except (Stop τ) β' × World τ ο' → Prop}
    {x : Run τ ο α} {x' : Run τ ο' α'} {k : α → Run τ ο β} {k' : α' → Run τ ο' β'}
    (hx : InStep A R Q (x w) (x' w'))
    (hstop : ∀ stop {w₁ w₁'}, Abreast R Q w₁ w₁' → P (.error stop, w₁) (.error stop, w₁'))
    (hk : ∀ {a a'}, A a a' → ∀ {w₁ w₁'}, Abreast R Q w₁ w₁' → P (k a w₁) (k' a' w₁')) :
    P ((x >>= k) w) ((x' >>= k') w') := by
  rw [Act.bind_apply, Act.bind_apply]
  generalize x w = r at hx
  generalize x' w' = r' at hx
  obtain ⟨r, w₁⟩ := r
  obtain ⟨r', w₁'⟩ := r'
  obtain ⟨houtcome, habreast⟩ := hx
  simp only at houtcome habreast
  cases houtcome with
  | ok h => exact hk h habreast
  | error stop => exact hstop stop habreast

theorem bind {x : Run τ ο α} {x' : Run τ ο' α'} {k : α → Run τ ο β} {k' : α' → Run τ ο' β'}
    (hx : InStep A R Q (x w) (x' w'))
    (hk : ∀ {a a'}, A a a' → ∀ {w₁ w₁'}, Abreast R Q w₁ w₁' → InStep B R Q (k a w₁) (k' a' w₁')) :
    InStep B R Q ((x >>= k) w) ((x' >>= k') w') :=
  hx.bind_to (fun stop _ _ h => ⟨.error stop, h⟩) hk

/-- The same for runs that give the same result. -/
theorem next {x : Run τ ο α} {x' : Run τ ο' α} {k : α → Run τ ο β} {k' : α → Run τ ο' β'}
    (hx : InStep Eq R Q (x w) (x' w'))
    (hk : ∀ a {w₁ w₁'}, Abreast R Q w₁ w₁' → InStep B R Q (k a w₁) (k' a w₁')) :
    InStep B R Q ((x >>= k) w) ((x' >>= k') w') :=
  hx.bind fun {a _} ha _ _ h => ha ▸ hk a h

end InStep

/-! ### The view -/

namespace Abreast

section Views

variable {R : Status → Status → Prop} {F : Report.Fault → Report.Fault → Prop} {Q : Around τ ο ο'}
  {w : World τ ο} {w' : World τ ο'} {out : Outside τ ο} {out' : Outside τ ο'} {s s' : Status}

theorem change (h : Abreast R Q w w') {f f' : View τ → View τ}
    (hf : (f w.rest.view).Alike R (f' w'.rest.view)) :
    InStep Eq R Q (View.change f w) (View.change f' w') :=
  ⟨.ok rfl, h.clock, hf, h.around⟩

theorem current (h : Abreast R Q w w') :
    InStep (View.Alike R) R Q (View.current w) (View.current w') :=
  ⟨.ok h.view, h⟩

theorem keep (h : Abreast R Q w w') {f f' : Option Status} (hf : Option.Rel R f f') :
    InStep Eq R Q (View.change ({ · with fallback := f }) w)
      (View.change ({ · with fallback := f' }) w') :=
  h.change { h.view with fallback := hf }

variable (hR : Kindred R)
  (hnote : ∀ {o e o' e'} {n n' : Note τ}, n.Alike R F n' → Q o e o' e' →
    Q o (.log n :: e) o' (.log n' :: e'))
  (hout : out.Parallels R Q out')

section Showing

include hnote

theorem note (h : Abreast R Q w w') {n n' : Note τ} (hn : n.Alike R F n') :
    InStep Eq R Q (TunnelView.note n w) (TunnelView.note n' w') :=
  ⟨.ok rfl, h.clock, h.view, hnote hn h.around⟩

include hout

theorem commit (h : Abreast R Q w w') (hs : R s s') :
    InStep Eq R Q (View.commit out s w) (View.commit out' s' w') :=
  h.current.bind fun hv _ _ h =>
    (h.change { h.view with status := hs }).next fun _ _ _ h =>
      (h.note hnote (.commit hv.status hs)).next fun _ _ _ h => hout hs h

theorem giveUp (h : Abreast R Q w w') :
    InStep Eq R Q (View.giveUp out w) (View.giveUp out' w') := by
  refine h.current.bind fun {v v'} hv _ _ h => ?_
  have hfallback := hv.fallback
  rw [hv.closed]
  generalize v.fallback = f at hfallback
  generalize v'.fallback = f' at hfallback
  cases v'.closed with
  | true => exact .pure h ()
  | false =>
    cases hfallback with
    | none => exact .pure h ()
    | some hs =>
      refine (h.keep .none).next fun _ _ _ h => ?_
      exact (h.note hnote (.reverting hs)).next fun _ _ _ h => h.commit hnote hout hs

end Showing

variable [Zero τ] [Add τ] [LT τ] [DecidableLT τ] [LE τ] [DecidableLE τ]

theorem now (h : Abreast R Q w w') : InStep Eq R Q (Timed.now w) (Timed.now w') :=
  ⟨.ok h.clock.now, h⟩

theorem cancelDeferral (h : Abreast R Q w w') :
    InStep Eq R Q (View.cancelDeferral w) (View.cancelDeferral w') := by
  obtain ⟨hslot, hclock⟩ := Slot.cancel_alike h.clock h.view.deferral
  exact ⟨.ok rfl, hclock, { h.view with deferral := hslot }, h.around⟩

theorem cancelTimeout (h : Abreast R Q w w') :
    InStep Eq R Q (View.cancelTimeout w) (View.cancelTimeout w') := by
  obtain ⟨hslot, hclock⟩ := Slot.cancel_alike h.clock h.view.timeout
  exact ⟨.ok rfl, hclock, { h.view with timeout := hslot }, h.around⟩

theorem putOff (h : Abreast R Q w w') {a a' : Alarm} (ha : a.Alike R a') (delay : τ) :
    InStep Eq R Q (View.putOff a delay w) (View.putOff a' delay w') := by
  obtain ⟨hslot, hclock⟩ := Slot.schedule_alike h.clock h.view.deferral ha delay
  exact ⟨.ok rfl, hclock, { h.view with deferral := hslot }, h.around⟩

theorem startTimeout (h : Abreast R Q w w') {a a' : Alarm} (ha : a.Alike R a') (delay : τ) :
    InStep Eq R Q (View.startTimeout a delay w) (View.startTimeout a' delay w') := by
  obtain ⟨hslot, hclock⟩ := Slot.schedule_alike h.clock h.view.timeout ha delay
  exact ⟨.ok rfl, hclock, { h.view with timeout := hslot }, h.around⟩

theorem resetFallback (h : Abreast R Q w w') :
    InStep Eq R Q (View.resetFallback w) (View.resetFallback w') :=
  h.cancelTimeout.next fun _ _ _ h => h.keep .none

theorem close (h : Abreast R Q w w') : InStep Eq R Q (View.close w) (View.close w') := by
  refine h.current.bind fun {v v'} hv _ _ h => ?_
  rw [hv.closed]
  cases v'.closed with
  | true => exact .pure h ()
  | false =>
    refine (h.change { h.view with closed := rfl }).next fun _ _ _ h => ?_
    exact h.cancelDeferral.next fun _ _ _ h => h.cancelTimeout.next fun _ _ _ h => h.keep .none

include hR hnote hout

theorem assume (h : Abreast R Q w w') (a : Assumption) :
    InStep Eq R Q (View.assume out a w) (View.assume out' a w') := by
  refine h.current.bind fun {v v'} hv _ _ h => ?_
  rw [hv.closed]
  cases v'.closed with
  | true => exact h.note hnote (.closedTo a)
  | false =>
    refine (h.change { h.view with fallback := .some h.view.status }).next fun _ _ _ h => ?_
    refine (h.commit hnote hout (hR.assumption a)).next fun _ _ _ h => ?_
    refine h.current.bind fun {v v'} hv _ _ h => ?_
    rw [hv.delays]
    refine (h.note hnote (.expecting a hv.fallback _)).next fun _ _ _ h => ?_
    exact h.startTimeout .giveUp _

theorem reveal (h : Abreast R Q w w') (hs : R s s') :
    InStep Eq R Q (View.reveal out s w) (View.reveal out' s' w') := by
  unfold View.reveal
  rw [hR.isReconnecting hs]
  by_cases hr : s'.isReconnecting
  · rw [if_pos hr, if_pos hr]
    exact (h.assume hR hnote hout .connecting).next fun _ _ _ h => h.keep (.some hs)
  · rw [if_neg hr, if_neg hr]
    exact h.commit hnote hout hs

theorem act (h : Abreast R Q w w') (hs : R s s') :
    InStep Eq R Q (View.act out s w) (View.act out' s' w') := by
  refine h.current.bind fun {v v'} hv _ _ h => ?_
  have hnone : v.fallback.isNone = v'.fallback.isNone := by
    rw [← Option.not_isSome, ← Option.not_isSome, isSome_eq_of_rel hv.fallback]
  have hsettles : v.settles s = v'.settles s' := by
    rw [View.settles, View.settles, hR.phase hs, hR.phase hv.status, hR.isError hs]
  rw [hnone, hsettles]
  by_cases hf : v'.fallback.isNone
  · rw [if_pos hf, if_pos hf]
    exact h.reveal hR hnote hout hs
  · rw [if_neg hf, if_neg hf]
    by_cases hset : v'.settles s'
    · rw [if_pos hset, if_pos hset]
      refine (h.note hnote (.confirmed hs)).next fun _ _ _ h => ?_
      exact h.resetFallback.next fun _ _ _ h => h.reveal hR hnote hout hs
    · rw [if_neg hset, if_neg hset]
      exact (h.note hnote (.stored hs)).next fun _ _ _ h => h.keep (.some hs)

variable [Sub τ]

theorem receive (h : Abreast R Q w w') (hs : R s s') :
    InStep Eq R Q (View.receive out s w) (View.receive out' s' w') := by
  refine h.current.bind fun {v v'} hv _ _ h => ?_
  rw [hv.closed]
  cases v'.closed with
  | true => exact .pure h ()
  | false =>
    refine h.now.next fun now _ _ h => ?_
    have htooSoon : v.tooSoon now = v'.tooSoon now := by
      rw [View.tooSoon, View.tooSoon, View.deferring, View.deferring, hv.lastActed, hv.delays,
        hv.deferral]
    rw [htooSoon, hv.delays]
    by_cases hsoon : v'.tooSoon now
    · simp only [hsoon, if_true]
      exact (h.note hnote (.debouncing hs)).next fun _ _ _ h => h.putOff (.deferred hs) _
    · simp only [hsoon]
      exact (h.change { h.view with lastActed := rfl }).next fun _ _ _ h =>
        h.act hR hnote hout hs

/-- The same call fires, and out of the same slot. -/
theorem fire (h : Abreast R Q w w') {t t' : Timer τ Alarm} (ht : t.Alike R t') :
    InStep Eq R Q (View.fire out t w) (View.fire out' t' w') := by
  refine h.current.bind fun {v v'} hv _ _ h => ?_
  have hcall := ht.call
  rw [hv.deferral, hv.timeout, ht.serial]
  generalize t.call = call at hcall
  generalize t'.call = call' at hcall
  cases hcall with
  | deferred hs =>
    cases v'.deferral.claim? t'.serial with
    | none => exact .pure h ()
    | some slot =>
      exact (h.change { h.view with deferral := rfl }).next fun _ _ _ h =>
        h.receive hR hnote hout hs
  | giveUp =>
    cases v'.timeout.claim? t'.serial with
    | none => exact .pure h ()
    | some slot =>
      exact (h.change { h.view with timeout := rfl }).next fun _ _ _ h => h.giveUp hnote hout

omit hR hnote hout [Sub τ] in
theorem popDue (h : Abreast R Q w w') (limit : Option τ) :
    InStep (Option.Rel (Timer.Alike R)) R Q (Timed.popDue limit w) (Timed.popDue limit w') := by
  obtain ⟨htimer, hclock⟩ := h.clock.popDue limit
  exact ⟨.ok htimer, hclock, h.view, h.around⟩

/-- Firing all that falls due by a limit, by induction on the firings. -/
theorem drain (h : Abreast R Q w w') (limit : Option τ) (fuel : ℕ) :
    InStep Eq R Q (Timed.drain (View.fire out) limit fuel w)
      (Timed.drain (View.fire out') limit fuel w') := by
  induction fuel generalizing w w' with
  | zero => exact .stop h _
  | succ fuel ih =>
    refine (h.popDue limit).bind fun ht _ _ h => ?_
    cases ht with
    | none => exact .pure h ()
    | some ht => exact (h.fire hR hnote hout ht).next fun _ _ _ h => ih h

theorem drainAll (h : Abreast R Q w w') (most : ℤ) (n : ℕ) :
    InStep Eq R Q (Timed.drainAll (View.fire out) most n w)
      (Timed.drainAll (View.fire out') most n w') := by
  induction n generalizing w w' with
  | zero => exact .stop h _
  | succ n ih =>
    refine (h.popDue none).bind fun ht _ _ h => ?_
    cases ht with
    | none => exact .pure h ()
    | some ht => exact (h.fire hR hnote hout ht).next fun _ _ _ h => ih h

theorem advanceTo (h : Abreast R Q w w') (fuel : ℕ) (time : τ) :
    InStep Eq R Q (Timed.advanceTo (View.fire out) fuel time w)
      (Timed.advanceTo (View.fire out') fuel time w') :=
  (h.drain hR hnote hout (some time) fuel).next fun _ _ _ h =>
    ⟨.ok rfl, h.clock.moveTo time, h.view, h.around⟩

theorem advance (h : Abreast R Q w w') (fuel : ℕ) (delta : τ) :
    InStep Eq R Q (Timed.advance (View.fire out) fuel delta w)
      (Timed.advance (View.fire out') fuel delta w') := by
  unfold Timed.advance
  by_cases hdelta : delta < 0
  · rw [if_pos hdelta, if_pos hdelta]
    exact .stop h _
  · rw [if_neg hdelta, if_neg hdelta]
    exact h.now.next fun _ _ _ h => h.advanceTo hR hnote hout fuel _

theorem advanceNowhere (h : Abreast R Q w w') (fuel : ℕ) (kind? : Option String) :
    InStep Eq R Q (Timed.advanceNowhere (View.fire out) fuel kind? w)
      (Timed.advanceNowhere (View.fire out') fuel kind? w') := by
  simp only [Timed.advanceNowhere, Act.bind_apply, Act.world]
  cases kind? with
  | none =>
    refine (h.drain hR hnote hout none fuel).next fun _ _ _ h => h.now.next fun _ _ _ h => ?_
    exact .stop h _
  | some kind =>
    have hfirst : Option.Rel (Timer.Alike R) (Timekeeper.first? w.clock)
        (Timekeeper.first? w'.clock) := h.clock.tidied.first?
    generalize Timekeeper.first? w.clock = t at hfirst
    generalize Timekeeper.first? w'.clock = t' at hfirst
    cases hfirst with
    | none => exact h.now.next fun _ _ _ h => .stop h _
    | some ht =>
      simp only [ht.deadline]
      exact .stop h _

end Views

end Abreast
end TunnelView
