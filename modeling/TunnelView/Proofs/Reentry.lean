import TunnelView.Proofs.Parts
import TunnelView.Proofs.Stays
import TunnelView.Proofs.Watch.Session

/-!
# Code outside that calls back

Whoever is shown a status, or sent a command, may run operations of its own before it comes back,
and what these call may do so in turn, to any depth; it may hold back failures, and fail in the end.
All that is asked of such code is that it leaves the world to the operations, apart from the books
that it keeps itself (`Outside.CallsBack`).

An invariant of operations then has to hold at each point at which code outside is called, or it has
to be clear what comes after the call whatever the call did. `Upheld` names what there is to check,
one point for each thing that a step can do; from there on it is the same for every invariant.

Running out of fuel or depth is no way to come back, and neither is an interrupt. So what is said of
runs that come back is said of all runs that go deep enough.

Key definitions: `Returns`, `Keeps`, `World.Reaches`, `Outside.CallsBack`, `Outside.Reenters`,
`Upheld`.
Key theorems: `View.assume_of_open`, `Upheld.receive`, `Upheld.fire`, `Upheld.op`,
`Upheld.of_reaches`, `outside_reenters`.
-/

namespace TunnelView

variable {τ ο σ α β : Type}

/-- Whether a stop is one that whoever called can hold back. -/
def Stop.isFailure : Stop τ → Bool
  | .failure _ => true
  | .interrupt _ | .exhausted => false

/-- Whether a run comes back, be it with a failure. -/
def Returns : Except (Stop τ) α → Prop
  | .ok _ => True
  | .error stop => stop.isFailure

instance (r : Except (Stop τ) α) : Decidable (Returns r) :=
  match r with
  | .ok _ => .isTrue trivial
  | .error stop => inferInstanceAs (Decidable (stop.isFailure = true))

/-- Whether a run that starts where `I` holds and comes back ends where `I` holds. -/
def Keeps (I : World τ ο → Prop) (x : Run τ ο α) : Prop :=
  ∀ w, I w → Returns (x w).1 → I (x w).2

/-- The slot in which an alarm is put. -/
def Alarm.slot (v : View τ) : Alarm → Slot
  | .deferred _ => v.deferral
  | .giveUp => v.timeout

/-- A run of two parts comes back only if the first does; if that comes back with a value only, the
second goes on from there. -/
theorem Act.bind_of_returns {x : Run τ ο Unit} {k : Unit → Run τ ο α} {w : World τ ο}
    (hok : Returns (x w).1 → (x w).1 = .ok ()) (h : Returns ((x >>= k) w).1) :
    Returns (x w).1 ∧ (x >>= k) w = k () (x w).2 := by
  rw [Act.bind_apply] at h ⊢
  have hr : Returns (x w).1 := by
    rcases hrun : x w with ⟨stop | u, w₁⟩
    · rw [hrun] at h
      exact h
    · trivial
  refine ⟨hr, ?_⟩
  have hvalue := hok hr
  rcases hrun : x w with ⟨r, w₁⟩
  rw [hrun] at hvalue
  obtain rfl : r = .ok () := hvalue
  rfl

namespace Keeps

variable {I : World τ ο → Prop}

theorem of_still {x : Run τ ο α} (h : ∀ w, (x w).2 = w) : Keeps I x := fun w hw _ => by rwa [h]

theorem pure (a : α) : Keeps I (Pure.pure a : Run τ ο α) := of_still fun _ => rfl

theorem stop (s : Stop τ) : Keeps I (.stop s : Run τ ο α) := of_still fun _ => rfl

/-- The second part of a run goes on where the first ends. -/
theorem bind_at {x : Run τ ο α} {k : α → Run τ ο β} {w : World τ ο}
    (hx : Returns (x w).1 → I (x w).2) (hk : ∀ a, Keeps I (k a))
    (h : Returns ((x >>= k) w).1) : I ((x >>= k) w).2 := by
  rw [Act.bind_apply] at h ⊢
  rcases hrun : x w with ⟨stop | a, w₁⟩
  · rw [hrun] at h hx
    exact hx h
  · rw [hrun] at h hx
    exact hk a w₁ (hx trivial) h

theorem bind {x : Run τ ο α} {k : α → Run τ ο β} (hx : Keeps I x) (hk : ∀ a, Keeps I (k a)) :
    Keeps I (x >>= k) :=
  fun w hw h => bind_at (hx w hw) hk h

theorem apply {x : Run τ ο α} {a : α} {w w₁ : World τ ο} (hx : Keeps I x) (h : x w = (.ok a, w₁))
    (hw : I w) : I w₁ := by
  have hback := hx w hw
  rw [h] at hback
  exact hback trivial

theorem discard {x : Run τ ο α} (hx : Keeps I x) : Keeps I (Functor.discard x) :=
  hx.bind fun _ => .pure ()

theorem world {k : World τ ο → Run τ ο α} (hk : ∀ w, Keeps I (k w)) : Keeps I (Act.world >>= k) :=
  (of_still fun _ => rfl).bind hk

theorem compositional : Compositional fun _ x _ => Keeps I x where
  still hx := of_still fun w => by
    obtain ⟨a, ha⟩ := hx w
    rw [ha]
  bind := bind

/-- A failure to send a command names the command, and changes nothing else. -/
theorem send {I : World τ (Client σ) → Prop} {out : Outside τ (Client σ)} {c : Command}
    (hs : Keeps I (out.send c)) : Keeps I (Link.send out c) := by
  intro w hw h
  have hback := hs w hw
  rw [Link.send] at h ⊢
  rcases hrun : out.send c w with ⟨(f | message | _) | u, w₁⟩
  all_goals rw [hrun] at h hback
  · exact hback rfl
  · exact hback h
  · exact hback h
  · exact hback trivial

end Keeps

/-! ### What a view does around the calls of code outside -/

section Steps

variable {out : Outside τ ο} {w : World τ ο}

/-- Notes go to the events, and nowhere else. -/
theorem foldl_record (notes : List (Note τ)) (w : World τ ο) : ∃ events,
    notes.foldl (fun w n => w.record (.log n)) w = { w with rest.events := events } := by
  induction notes generalizing w with
  | nil => exact ⟨_, rfl⟩
  | cons n notes ih =>
    obtain ⟨events, he⟩ := ih (w.record (.log n))
    exact ⟨events, he⟩

/-- The guard around whoever is shown a status holds all failures back. -/
theorem View.showing_settle {r : Except (Stop τ) Unit}
    (h : Returns (View.showing.settle () r).2) :
    Returns r ∧ (View.showing.settle () r).2 = .ok () := by
  rcases r with (f | message | _) | _
  · exact ⟨rfl, rfl⟩
  · exact absurd h Bool.false_ne_true
  · exact absurd h Bool.false_ne_true
  · exact ⟨trivial, rfl⟩

/-- A status is on show before whoever is shown it is called; and if that comes back, then so does
the view, whatever the outcome. -/
theorem View.commit_of_returns {s : Status} (h : Returns (View.commit out s w).1) :
    let shown := { w with
      rest.view.status := s, rest.events := .log (.commit w.rest.view.status s) :: w.rest.events }
    (View.commit out s w).1 = .ok () ∧ Returns (out.present s shown).1 ∧
      ∃ events, (View.commit out s w).2 = { (out.present s shown).2 with rest.events := events } := by
  intro shown
  obtain ⟨hr, hok⟩ := View.showing_settle (r := (out.present s shown).1) h
  exact ⟨hok, hr, foldl_record _ _⟩

/-- Showing a status keeps what does not depend on the status and is kept by whoever is shown it. -/
theorem Keeps.commit {I : World τ ο → Prop}
    (hset : ∀ {w} s events, I w → I { w with rest.view.status := s, rest.events := events })
    (hp : ∀ s, Keeps I (out.present s)) (s : Status) : Keeps I (View.commit out s) := by
  intro w hw h
  obtain ⟨-, hr, events, he⟩ := View.commit_of_returns h
  rw [he]
  exact hset _ events (hp s _ (hset s _ hw) hr)

variable [Zero τ] [Add τ] [LT τ] [DecidableLT τ] [LE τ] [DecidableLE τ]

theorem View.assume_of_closed {a : Assumption} (hc : w.rest.view.closed) :
    View.assume out a w = note (.closedTo a) w := by
  rw [View.assume, View.current_bind, hc]
  rfl

/-- An assumption that is made on an open view: what was on show is kept, the assumption is shown,
and the alarm is set. -/
theorem View.assume_apply {a : Assumption} (hc : w.rest.view.closed = false) :
    View.assume out a w = (View.commit out a.status >>= fun _ => do
      let v ← View.current
      note (.expecting a v.fallback v.delays.patience)
      View.startTimeout .giveUp v.delays.patience)
        { w with rest.view.fallback := some w.rest.view.status } := by
  rw [View.assume, View.current_bind, hc]
  rfl

/-- The alarm is set whatever was done by whoever was shown the assumption. -/
theorem View.assume_of_open {a : Assumption} (hc : w.rest.view.closed = false)
    (h : Returns (View.assume out a w).1) : (View.assume out a w).1 = .ok () ∧
      ∃ back, View.commit out a.status { w with rest.view.fallback := some w.rest.view.status } =
          (.ok (), back) ∧
        ∃ events, (View.assume out a w).2 =
          (View.startTimeout .giveUp back.rest.view.delays.patience
            { back with rest.events := events }).2 := by
  rw [View.assume_apply hc] at h ⊢
  obtain ⟨hr, he⟩ := Act.bind_of_returns (fun h => (View.commit_of_returns h).1) h
  rw [he]
  exact ⟨rfl, _, Prod.ext (View.commit_of_returns hr).1 rfl, _, rfl⟩

theorem View.receive_apply [Sub τ] (s : Status) : View.receive out s w =
    if w.rest.view.closed then (.ok (), w)
    else if w.rest.view.tooSoon w.clock.now then
      View.putOff (.deferred s) w.rest.view.delays.window (w.record (.log (.debouncing s)))
    else View.act out s { w with rest.view.lastActed := w.clock.now } := by
  rw [View.receive, View.current_bind]
  by_cases hc : w.rest.view.closed
  · rw [if_pos hc, if_pos hc]
    rfl
  · rw [if_neg hc, if_neg hc]
    by_cases hs : w.rest.view.tooSoon w.clock.now
    · rw [if_pos hs]
      exact congrFun (if_pos hs) w
    · rw [if_neg hs]
      exact congrFun (if_neg hs) w

omit [Zero τ] [Add τ] [LT τ] [DecidableLT τ] [LE τ] [DecidableLE τ] in
theorem View.giveUp_apply : View.giveUp out w =
    match w.rest.view.closed, w.rest.view.fallback with
    | false, some s =>
      View.commit out s
        (World.record (.log (.reverting s)) { w with rest.view.fallback := none })
    | _, _ => (.ok (), w) := by
  rw [View.giveUp, View.current_bind]
  cases w.rest.view.closed <;> cases w.rest.view.fallback <;> rfl

theorem View.fire_apply [Sub τ] (t : Timer τ Alarm) : View.fire out t w =
    if (t.call.slot w.rest.view).armed = some t.serial then
      match t.call with
      | .deferred s =>
        View.receive out s { w with rest.view.deferral := w.rest.view.deferral.emptied }
      | .giveUp => View.giveUp out { w with rest.view.timeout := w.rest.view.timeout.emptied }
    else (.ok (), w) := by
  rw [View.fire, View.current_bind]
  rcases t with ⟨deadline, serial, s | _⟩
  · by_cases h : w.rest.view.deferral.armed = some serial
    · simp only [Slot.claim?_eq, Alarm.slot, h, if_true]
      rfl
    · simp only [Slot.claim?_eq, Alarm.slot, h, if_false]
      rfl
  · by_cases h : w.rest.view.timeout.armed = some serial
    · simp only [Slot.claim?_eq, Alarm.slot, h, if_true]
      rfl
    · simp only [Slot.claim?_eq, Alarm.slot, h, if_false]
      rfl

theorem View.close_of_closed (hc : w.rest.view.closed) : View.close w = (.ok (), w) := by
  rw [View.close, View.current_bind, if_pos hc]
  rfl

theorem View.close_of_open (hc : w.rest.view.closed = false) : View.close w = (do
    View.cancelDeferral
    View.cancelTimeout
    View.change ({ · with fallback := none })) { w with rest.view.closed := true } := by
  rw [View.close, View.current_bind, hc]
  rfl

/-! ### Invariants -/

/-- What there is to check of an invariant `I`, one point for each thing that a step can do, as long
as those who are shown statuses keep the invariant and are `fair`. -/
structure Upheld (fair : Outside τ ο → Prop) (I : World τ ο → Prop) : Prop where
  aside : ∀ {w} owner events, I w → I { w with rest.owner := owner, rest.events := events }
  status : ∀ {w} s, I w → I { w with rest.view.status := s }
  acted : ∀ {w} t, I w → I { w with rest.view.lastActed := t }
  moveTo : ∀ {w} t, I w → I { w with clock := w.clock.moveTo t }
  tidied : ∀ {w}, I w → I { w with clock := w.clock.tidied }
  /-- A call falls due that no slot holds. -/
  missed : ∀ {w limit t clock}, I w → w.clock.popDue limit = (some t, clock) →
    (t.call.slot w.rest.view).armed ≠ some t.serial → I { w with clock }
  /-- The call of a report falls due. -/
  recalled : ∀ {w limit t clock}, I w → w.clock.popDue limit = (some t, clock) →
    w.rest.view.deferral.armed = some t.serial → t.call ≠ .giveUp →
    I { w with clock, rest.view.deferral := w.rest.view.deferral.emptied }
  /-- The time of an assumption is over; a view that is open drops it. -/
  lapsed : ∀ {w limit t clock}, I w → w.clock.popDue limit = (some t, clock) →
    w.rest.view.timeout.armed = some t.serial → t.call = .giveUp →
    I { w with clock, rest.view := { w.rest.view with
      timeout := w.rest.view.timeout.emptied
      fallback := if w.rest.view.closed then w.rest.view.fallback else none } }
  resetFallback : ∀ {w}, I w → I (View.resetFallback w).2
  close : ∀ {w}, I w → I (View.close w).2
  putOff : ∀ {w} s delay, I w → w.rest.view.closed = false →
    I (View.putOff (.deferred s) delay w).2
  stored : ∀ {w} s, I w → w.rest.view.closed = false → w.rest.view.fallback ≠ none →
    I { w with rest.view.fallback := some s }
  /-- An assumption is made; a reconnect that is shown as one is kept behind it. -/
  assumed : ∀ {out w} a, fair out → (∀ s, Keeps I (out.present s)) → I w →
    w.rest.view.closed = false → Returns (View.assume out a w).1 →
    I (View.assume out a w).2 ∧
      ∀ s, I { (View.assume out a w).2 with rest.view.fallback := some s }

namespace Upheld

variable {fair : Outside τ ο → Prop} {I : World τ ο → Prop}

theorem events (hI : Upheld fair I) (events : List (Event τ)) (hw : I w) :
    I { w with rest.events := events } :=
  hI.aside w.rest.owner events hw

theorem note (hI : Upheld fair I) (n : Note τ) : Keeps I (TunnelView.note n : Run τ ο Unit) :=
  fun _ hw _ => hI.events _ hw

theorem commit (hI : Upheld fair I) (hp : ∀ s, Keeps I (out.present s)) (s : Status) :
    Keeps I (View.commit out s) :=
  .commit (fun s _ hw => hI.events _ (hI.status s hw)) hp s

variable (hI : Upheld fair I) (hfair : fair out) (hp : ∀ s, Keeps I (out.present s))

include hI hfair hp

theorem assume (a : Assumption) : Keeps I (View.assume out a) := by
  intro w hw h
  cases hc : w.rest.view.closed with
  | true =>
    rw [View.assume_of_closed hc]
    exact hI.events _ hw
  | false => exact (hI.assumed a hfair hp hw hc h).1

theorem reveal {s : Status} (hw : I w) (hc : w.rest.view.closed = false)
    (h : Returns (View.reveal out s w).1) : I (View.reveal out s w).2 := by
  by_cases hs : s.isReconnecting
  · have hrun : View.reveal out s =
        (do View.assume out .connecting; View.change ({ · with fallback := some s })) := if_pos hs
    rw [hrun] at h ⊢
    obtain ⟨hr, he⟩ := Act.bind_of_returns (fun h => (View.assume_of_open hc h).1) h
    rw [he]
    exact (hI.assumed .connecting hfair hp hw hc hr).2 s
  · have hrun : View.reveal out s = View.commit out s := if_neg hs
    rw [hrun] at h ⊢
    exact hI.commit hp s w hw h

theorem act {s : Status} (hw : I w) (hc : w.rest.view.closed = false)
    (h : Returns (View.act out s w).1) : I (View.act out s w).2 := by
  rw [View.act, View.current_bind] at h ⊢
  by_cases hf : w.rest.view.fallback.isNone
  · rw [if_pos hf] at h ⊢
    exact hI.reveal hfair hp hw hc h
  · rw [if_neg hf] at h ⊢
    by_cases hs : w.rest.view.settles s
    · rw [if_pos hs] at h ⊢
      have hreset := hI.resetFallback (hI.note (.confirmed s) w hw trivial)
      exact hI.reveal hfair hp hreset hc h
    · rw [if_neg hs]
      have hkept : w.rest.view.fallback ≠ none := by simpa using hf
      exact hI.stored s (hI.note (.stored s) w hw trivial) hc hkept

variable [Sub τ]

theorem receive (s : Status) : Keeps I (View.receive out s) := by
  intro w hw h
  rw [View.receive_apply] at h ⊢
  by_cases hc : w.rest.view.closed
  · rw [if_pos hc]
    exact hw
  · have hopen : w.rest.view.closed = false := by simpa using hc
    rw [if_neg hc] at h ⊢
    by_cases hs : w.rest.view.tooSoon w.clock.now
    · rw [if_pos hs]
      exact hI.putOff s _ (hI.events _ hw) hopen
    · rw [if_neg hs] at h ⊢
      exact hI.act hfair hp (hI.acted _ hw) hopen h

/-- A call that falls due keeps an invariant, from taking it off the clock to its end. -/
theorem fire {limit : Option τ} {t : Timer τ Alarm} {clock : Clock τ Alarm} (hw : I w)
    (hpop : w.clock.popDue limit = (some t, clock))
    (h : Returns (View.fire out t { w with clock }).1) :
    I (View.fire out t { w with clock }).2 := by
  rw [View.fire_apply] at h ⊢
  by_cases hslot : (t.call.slot w.rest.view).armed = some t.serial
  · rw [if_pos hslot] at h ⊢
    rcases t with ⟨deadline, serial, s | _⟩
    · have hrecalled := hI.recalled hw hpop hslot nofun
      exact hI.receive hfair hp s _ hrecalled h
    · have hlapsed := hI.lapsed hw hpop hslot rfl
      simp only [View.giveUp_apply] at h ⊢
      cases hc : w.rest.view.closed with
      | true => simpa [hc] using hlapsed
      | false =>
        cases hf : w.rest.view.fallback with
        | none => simpa [hc, hf] using hlapsed
        | some s =>
          simp only [hc, hf] at h hlapsed ⊢
          exact hI.commit hp s _ (hI.events _ hlapsed) h
  · rw [if_neg hslot]
    exact hI.missed hw hpop hslot

/-- Looking for what falls due by a limit, firing it and going on keeps an invariant. -/
theorem look {limit : Option τ} {next : Option (Timer τ Alarm) → Run τ ο Unit} {rest : Run τ ο Unit}
    (hnone : next none = pure ()) (hsome : ∀ t, next (some t) = View.fire out t >>= fun _ => rest)
    (hrest : Keeps I rest) : Keeps I (Timed.popDue limit >>= next) := by
  intro w hw h
  rw [Act.bind_apply] at h ⊢
  rcases hpop : w.clock.popDue limit with ⟨_ | t, clock⟩
  · rw [Timed.popDue_apply hpop, Clock.popDue_of_none hpop]
    simp only [hnone]
    exact hI.tidied hw
  · rw [Timed.popDue_apply hpop] at h ⊢
    simp only [hsome] at h ⊢
    exact Keeps.bind_at (hI.fire hfair hp hw hpop) (fun _ => hrest) h

/-- Firing all that falls due by a limit keeps an invariant, by induction on the firings. -/
theorem drain (limit : Option τ) (fuel : ℕ) :
    Keeps I (Timed.drain (View.fire out) limit fuel) := by
  induction fuel with
  | zero => exact .stop _
  | succ fuel ih => exact hI.look hfair hp rfl (fun _ => rfl) ih

theorem drainAll (most : ℤ) (n : ℕ) : Keeps I (Timed.drainAll (View.fire out) most n) := by
  induction n with
  | zero => exact .stop _
  | succ n ih => exact hI.look hfair hp rfl (fun _ => rfl) ih

theorem advanceTo (fuel : ℕ) (time : τ) :
    Keeps I (Timed.advanceTo (View.fire out) fuel time) :=
  (hI.drain hfair hp _ _).bind fun _ _ hw _ => hI.moveTo time hw

theorem advanceNowhere (fuel : ℕ) (kind? : Option String) :
    Keeps I (Timed.advanceNowhere (View.fire out) fuel kind?) := by
  refine (Keeps.of_still fun _ => rfl).bind fun w => ?_
  cases kind? with
  | none =>
    exact (hI.drain hfair hp _ _).bind fun _ => (Keeps.of_still fun _ => rfl).bind fun _ => .stop _
  | some kind =>
    cases Timekeeper.first? w.clock with
    | none => exact (Keeps.of_still fun _ => rfl).bind fun _ => .stop _
    | some t => exact .stop _

end Upheld
end Steps

/-! ### Code outside that runs operations -/

section Reaching

/-- The worlds that are reached from a world by operations that come back, and by changes that code
outside makes to its own books: its memory and the events. -/
inductive World.Reaches (run : Op τ → Run τ (Client σ) Reply) (w : World τ (Client σ)) :
    World τ (Client σ) → Prop
  | here : Reaches run w w
  | op {w'} (op : Op τ) : Reaches run w w' → Returns (run op w').1 → Reaches run w (run op w').2
  | aside {w'} memory events : Reaches run w w' →
    Reaches run w { w' with rest.owner.memory := memory, rest.events := events }

/-- Whether operations that are run in order all come back. -/
def World.AllReturn (run : Op τ → Run τ (Client σ) Reply) : List (Op τ) → World τ (Client σ) → Prop
  | [], _ => True
  | op :: ops, w => Returns (run op w).1 ∧ AllReturn run ops (run op w).2

/-- Code outside that runs nothing but operations, as many as it likes. -/
structure Outside.CallsBack (run : Op τ → Run τ (Client σ) Reply) (out : Outside τ (Client σ)) :
    Prop where
  present : ∀ s w, Returns (out.present s w).1 → w.Reaches run (out.present s w).2
  send : ∀ c w, Returns (out.send c w).1 → w.Reaches run (out.send c w).2

instance World.decidableAllReturn (run : Op τ → Run τ (Client σ) Reply) : (ops : List (Op τ)) →
    (w : World τ (Client σ)) → Decidable (w.AllReturn run ops)
  | [], _ => .isTrue trivial
  | op :: ops, w =>
    have := decidableAllReturn run ops (run op w).2
    inferInstanceAs (Decidable (Returns (run op w).1 ∧ (run op w).2.AllReturn run ops))

variable {run : Op τ → Run τ (Client σ) Reply} {host : Host τ σ} {w : World τ (Client σ)}

theorem World.Reaches.foldl {ops : List (Op τ)} {w₁ : World τ (Client σ)} (h : w.Reaches run w₁)
    (hops : w₁.AllReturn run ops) : w.Reaches run (ops.foldl (fun w op => (run op w).2) w₁) := by
  induction ops generalizing w₁ with
  | nil => exact h
  | cons op ops ih => exact ih (h.op op hops.1) hops.2

theorem World.Reaches.runOps (ops : List (Op τ)) :
    Keeps (w.Reaches run) (TunnelView.runOps run ops) := by
  induction ops with
  | nil => exact .pure ()
  | cons op ops ih =>
    have hop : Keeps (w.Reaches run) (run op) := fun _ h hr => h.op op hr
    exact hop.discard.bind fun _ => ih

/-- A host keeps its memory, and runs operations. -/
theorem World.Reaches.respond (call : Call) :
    Keeps (w.Reaches run) (TunnelView.respond host run call) := by
  refine Keeps.bind (fun _ h _ => h.aside _ _) fun _ => Keeps.world fun _ => ?_
  refine Keeps.bind (fun _ h _ => h.aside _ _) fun _ => (runOps _).bind fun _ => ?_
  split
  · exact .pure ()
  · exact .stop _

end Reaching

/-! ### Operations -/

section Operations

variable [Zero τ] [Add τ] [LT τ] [DecidableLT τ] [LE τ] [DecidableLE τ]
  {out : Outside τ (Client σ)} {fair : Outside τ (Client σ) → Prop} {I : World τ (Client σ) → Prop}

/-- What every operation keeps holds in all worlds that are reached. -/
theorem World.Reaches.keeps {run : Op τ → Run τ (Client σ) Reply} {w w₁ : World τ (Client σ)}
    (hI : Upheld fair I) (hrun : ∀ op, Keeps I (run op)) (h : w.Reaches run w₁)
    (hw : I w) : I w₁ := by
  induction h with
  | here => exact hw
  | op op _ hr ih => exact hrun op _ ih hr
  | aside memory events _ ih => exact hI.aside _ events ih

/-- Code outside that runs operations keeps what they keep. -/
theorem Outside.CallsBack.keeps {run : Op τ → Run τ (Client σ) Reply} (hI : Upheld fair I)
    (hrun : ∀ op, Keeps I (run op)) (h : out.CallsBack run) :
    (∀ s, Keeps I (out.present s)) ∧ ∀ c, Keeps I (out.send c) :=
  ⟨fun s w hw hr => (h.present s w hr).keeps hI hrun hw,
    fun c w hw hr => (h.send c w hr).keeps hI hrun hw⟩

namespace Upheld

variable [Sub τ]

theorem opParts (hI : Upheld fair I) (hfair : fair out) (hp : ∀ s, Keeps I (out.present s))
    (fuel : ℕ) : OpParts (fun _ x _ => Keeps I x) out out fuel fuel where
  toCompositional := Keeps.compositional
  fail _ := .stop _
  note := hI.note
  link _ := fun _ hw _ => hI.aside _ _ hw
  reset := fun _ hw _ => hI.resetFallback hw
  close := fun _ hw _ => hI.close hw
  receive := hI.receive hfair hp
  assume := hI.assume hfair hp
  advanceTo := hI.advanceTo hfair hp fuel
  advanceNowhere := hI.advanceNowhere hfair hp fuel
  idle most := hI.drainAll hfair hp most _

/-- Every operation keeps an invariant. -/
theorem op (hI : Upheld fair I) (hfair : fair out) (hp : ∀ s, Keeps I (out.present s))
    (hs : ∀ c, Keeps I (out.send c)) (fuel : ℕ) (op : Op τ) : Keeps I (op.run out fuel) :=
  (hI.opParts hfair hp fuel).op (fun c _ => (hs c).send) fun s _ => .stop s

end Upheld

/-! ### Calls inside calls -/

variable [Sub τ]

/-- Code outside that is `fair`, and runs operations that call such code again, down to some depth.
-/
inductive Outside.Reenters (fair : Outside τ (Client σ) → Prop) : Outside τ (Client σ) → Prop
  | calm {out : Outside τ (Client σ)} : fair out → out.CallsBack (fun _ => .stop .exhausted) →
    Reenters fair out
  | calling {out inner : Outside τ (Client σ)} (fuel : ℕ) : Reenters fair inner → fair out →
    out.CallsBack (Op.run inner fuel) → Reenters fair out

theorem Outside.Reenters.mono {fair' : Outside τ (Client σ) → Prop} (h : out.Reenters fair)
    (himp : ∀ out, fair out → fair' out) : out.Reenters fair' := by
  induction h with
  | calm hfair hcalls => exact .calm (himp _ hfair) hcalls
  | calling fuel _ hfair hcalls ih => exact .calling fuel ih (himp _ hfair) hcalls

/-- **An invariant holds through calls inside calls**, by induction on their depth. -/
theorem Outside.Reenters.keeps (hI : Upheld fair I) (h : out.Reenters fair) (fuel : ℕ) (op : Op τ) :
    Keeps I (op.run out fuel) := by
  induction h generalizing fuel op with
  | calm hfair hcalls =>
    obtain ⟨hp, hs⟩ := hcalls.keeps hI fun _ => .stop .exhausted
    exact hI.op hfair hp hs fuel op
  | calling inner _ hfair hcalls ih =>
    obtain ⟨hp, hs⟩ := hcalls.keeps hI (ih inner)
    exact hI.op hfair hp hs fuel op

/-- An invariant that holds at the start holds whenever no call is in progress. -/
theorem Upheld.of_reaches {w w₁ : World τ (Client σ)} (hI : Upheld fair I) (hout : out.Reenters fair)
    {fuel : ℕ} (h : w.Reaches (Op.run out fuel) w₁) (hw : I w) : I w₁ :=
  h.keeps hI (fun op => hout.keeps hI fuel op) hw

/-! ### Hosts -/

section Hosts

variable {host : Host τ σ} {w : World τ (Client σ)}

/-- All that a link makes of a status that goes out is, perhaps, that the service is lost. -/
theorem World.Reaches.tellLink (fuel : ℕ) :
    Keeps (w.Reaches (Op.run out fuel)) TunnelView.tellLink := by
  intro w₁ h hr
  rw [TunnelView.tellLink, Act.bind_apply] at hr ⊢
  simp only [Client.link?] at hr ⊢
  cases hl : w₁.rest.owner.link with
  | none => exact h
  | some l =>
    -- hearing of a loss is the operation only as long as there is a link
    have hlose : Keeps (fun w₂ => w.Reaches (Op.run out fuel) w₂ ∧ w₂.rest.owner.link ≠ none)
        Link.lose := by
      rintro w₂ ⟨h₂, hlink⟩ -
      obtain ⟨l₂, hl₂⟩ := Option.ne_none_iff_exists'.mp hlink
      have hop : Op.run out fuel .lose w₂ = (.ok .nothing, (Link.lose w₂).2) := by
        rw [Op.run, withLink, Act.bind_apply]
        simp only [Client.link?, hl₂]
        rfl
      have hreach := h₂.op .lose (by rw [hop]; trivial)
      rw [hop] at hreach
      refine ⟨hreach, ?_⟩
      show w₂.rest.owner.link.map _ ≠ none
      rw [hl₂]
      exact Option.some_ne_none _
    rw [hl] at hr
    exact (Keeps.compositional.overhear (fun _ => .stop _) hlose l w₁ ⟨h, by simp [hl]⟩ hr).1

/-- **Whatever a host does, it is code that calls back**, down to the depth that it is given. -/
theorem outside_reenters (hfair : ∀ n, fair (outside host n)) (n : ℕ) :
    (outside host n).Reenters fair := by
  induction n with
  | zero => exact .calm (hfair 0) ⟨fun _ _ h => absurd h Bool.false_ne_true,
      fun _ _ h => absurd h Bool.false_ne_true⟩
  | succ n ih =>
    refine .calling n ih (hfair (n + 1)) ⟨fun s w h => ?_, fun c w h => ?_⟩
    · exact ((World.Reaches.tellLink n).bind fun _ => .respond (.shown s)) w .here h
    · exact World.Reaches.respond (.sent c) w .here h

end Hosts
end Operations

/-- A session in which all operations come back goes through worlds that are reached. -/
theorem Session.reaches_after [AddCommGroup τ] [LinearOrder τ] {host : Host τ σ} {fuel : ℕ}
    {ops : List (Op τ)} {w : World τ (Client σ)}
    (h : w.AllReturn (Op.run (outside host fuel) fuel) ops) :
    w.Reaches (Op.run (outside host fuel) fuel) (Session.after host fuel ops w) :=
  World.Reaches.here.foldl h

end TunnelView
