import TunnelView.Proofs.Steps
import TunnelView.Proofs.Twins

/-!
# No assumption while the service is out of reach

When the service is lost there is nobody left to confirm an assumption, so the one on show is
dropped, and until a report comes in no user action is permitted. One way to a new assumption
remains, though: a report that was put off before the loss comes back when its quiet window is over,
and if it says that the service reconnects, it is shown as an assumption. So the law has a
condition: no such report is waiting when the service is lost.

What is shown here is about a client whose link hears only what is meant for it, under the standard
policy, driven through its link and the clock; whoever it calls may fail, but calls nothing.

Key definitions: `Clock.holdsReconnect`, `World.Unassuming`, `Client.Linked`, `World.Secure`.
Key theorems: `World.Path.owner`, `World.Parted.fire`, `World.Secure.op`,
`Session.unassuming_while_lost`, `Session.assumes_while_lost`.
-/

namespace TunnelView

variable {τ ο σ : Type}

/-- Whether an alarm brings back a report that would be shown as an assumption. -/
def Alarm.reconnects : Alarm → Bool
  | .deferred s => s.isReconnecting
  | .giveUp => false

/-- Whether a report waits that would be shown as an assumption. -/
def Clock.holdsReconnect (c : Clock τ Alarm) : Bool := c.timers.any (·.call.reconnects)

/-- Whether an event is the note of an assumption. -/
def Event.isAssumption : Event τ → Bool
  | .log (.expecting _ _ _) => true
  | _ => false

/-- Whether an operation tells the link that the service is lost. -/
def Op.loses : Op τ → Bool
  | .lose | .publishLoss => true
  | _ => false

/-- Whether an operation is one on the link or the clock, and not on the view alone. -/
def Op.onLink : Op τ → Bool
  | .notify _ | .expect _ | .reset | .closeView | .stop _ => false
  | _ => true

/-- A client under the standard policy whose link hears only what is meant for it, and reaches the
service or does not. -/
def Client.Linked (reachable : Bool) (c : Client σ) : Prop :=
  c.policy = .standard ∧ ∃ l, c.link = some l ∧ l.overhears = {} ∧ l.reachable = reachable

/-- Nothing is assumed, and nothing waits that would be. -/
structure World.Unassuming (w : World τ ο) : Prop where
  fallback : w.rest.view.fallback = none
  timeout : w.rest.view.timeout.armed = none
  waiting : w.clock.holdsReconnect = false
  events : ∀ e ∈ w.rest.events, e.isAssumption = false

/-- The service is lost, and nothing is assumed. -/
def World.Parted (w : World τ (Client σ)) : Prop := w.rest.owner.Linked false ∧ w.Unassuming

/-- Nothing is assumed unless the service is within reach. -/
def World.Secure (w : World τ (Client σ)) : Prop := w.rest.owner.Linked true ∨ w.Parted

/-! ### Code outside that calls nothing -/

/-- What a call of such code changes: its memory and the events, with no assumption among the new
ones. -/
def World.Called (w w' : World τ (Client σ)) : Prop :=
  ∃ memory events, w' = { w with rest.owner.memory := memory, rest.events := events } ∧
    ∀ e ∈ events, e.isAssumption → e ∈ w.rest.events

theorem World.Called.of_respond {host : Host τ σ} (h : host.CallsNothing)
    (run : Op τ → Run τ (Client σ) Reply) (call : Call) (w : World τ (Client σ)) :
    w.Called (respond host run call w).2 := by
  have hevent : ∀ e ∈ call.event w.clock.now :: w.rest.events,
      e.isAssumption → e ∈ w.rest.events := by
    intro e he hassumes
    rcases List.mem_cons.mp he with rfl | he
    · cases call <;> contradiction
    · exact he
  rw [respond_of_callsNothing h]
  exact ⟨_, _, rfl, hevent⟩

theorem Client.Linked.undisturbed {reachable : Bool} {c : Client σ} (h : c.Linked reachable) :
    c.Undisturbed := by
  obtain ⟨-, l, hl, hplain, -⟩ := h
  intro l' hl'
  obtain rfl : l = l' := Option.some.inj (hl.symm.trans hl')
  exact hplain

theorem World.Unassuming.called {w w' : World τ (Client σ)} (h : w.Unassuming) (hw : w.Called w') :
    w'.Unassuming := by
  obtain ⟨memory, events, rfl, hevents⟩ := hw
  refine ⟨h.fallback, h.timeout, h.waiting, fun e he => ?_⟩
  by_contra hassumes
  have hassumes : e.isAssumption = true := by simpa using hassumes
  have hold := h.events e (hevents e he hassumes)
  rw [hassumes] at hold
  contradiction

theorem Client.Linked.called {reachable : Bool} {w w' : World τ (Client σ)}
    (h : w.rest.owner.Linked reachable) (hw : w.Called w') : w'.rest.owner.Linked reachable := by
  obtain ⟨memory, events, rfl, -⟩ := hw
  exact h

/-! ### The view while the service is lost -/

theorem Clock.holdsReconnect_eq_false {c : Clock τ Alarm} :
    c.holdsReconnect = false ↔ ∀ t ∈ c.timers, t.call.reconnects = false := by
  simp [Clock.holdsReconnect, List.any_eq_false]

theorem Clock.holdsReconnect_of_subset {c c' : Clock τ Alarm} (h : c.holdsReconnect = false)
    (hsub : ∀ t ∈ c'.timers, t ∈ c.timers) : c'.holdsReconnect = false :=
  holdsReconnect_eq_false.mpr fun t ht => holdsReconnect_eq_false.mp h t (hsub t ht)

namespace World.Parted

variable {w : World τ (Client σ)}

theorem record {n : Note τ} (h : w.Parted) (hn : (Event.log n).isAssumption = false) :
    (w.record (.log n)).Parted := by
  obtain ⟨hlinked, hfallback, htimeout, hwaiting, hevents⟩ := h
  refine ⟨hlinked, hfallback, htimeout, hwaiting, fun e he => ?_⟩
  rcases List.mem_cons.mp he with rfl | he
  · exact hn
  · exact hevents e he

theorem of_clock (h : w.Parted) {clock : Clock τ Alarm}
    (hsub : ∀ t ∈ clock.timers, t ∈ w.clock.timers) : World.Parted { w with clock } :=
  ⟨h.1, h.2.fallback, h.2.timeout, Clock.holdsReconnect_of_subset h.2.waiting hsub, h.2.events⟩

/-- Showing a status keeps it so, if whoever is shown it does. -/
theorem commit {out : Outside τ (Client σ)}
    (hshown : ∀ s, Stays World.Parted (out.present s)) (h : w.Parted) (s : Status) :
    (View.commit out s w).2.Parted := by
  obtain ⟨hlinked, hfallback, htimeout, hwaiting, hevents⟩ := h
  let turned : World τ (Client σ) := { w with rest.view.status := s }
  have hturned : turned.Parted := ⟨hlinked, hfallback, htimeout, hwaiting, hevents⟩
  have hback := hshown s _ (hturned.record (n := .commit w.rest.view.status s) rfl)
  have hrun : View.commit out s w = guarded (View.showing.settle ()) (out.present s)
    (turned.record (.log (.commit w.rest.view.status s))) := rfl
  rw [hrun, guarded]
  rcases hpresent : out.present s _ with ⟨(f | message | _) | u, w₁⟩
  all_goals rw [hpresent] at hback
  · exact hback.record rfl
  · exact hback
  · exact hback
  · exact hback

end World.Parted

theorem World.Secure.record {n : Note τ} {w : World τ (Client σ)} (h : w.Secure)
    (hn : (Event.log n).isAssumption = false) :
    (w.record (.log n)).Secure :=
  h.imp id fun h => h.record hn

theorem Client.Linked.map {c : Client σ} {before after : Bool} (h : c.Linked before)
    {f : Link → Link} (hears : ∀ l, (f l).overhears = l.overhears)
    (hreaches : ∀ l, l.reachable = before → (f l).reachable = after) :
    Client.Linked after { c with link := c.link.map f } := by
  obtain ⟨hpolicy, l, hl, hplain, hreachable⟩ := h
  exact ⟨hpolicy, f l, by simp [hl], (hears l).trans hplain, hreaches l hreachable⟩

/-- A change of the link that leaves what it hears and whether it reaches the service. -/
theorem World.Secure.change {w : World τ (Client σ)} (h : w.Secure) {f : Link → Link}
    (hf : ∀ l, (f l).overhears = l.overhears ∧ (f l).reachable = l.reachable) :
    (Link.change f w).2.Secure := by
  have hmap : ∀ {reachable}, w.rest.owner.Linked reachable →
      (Link.change f w).2.rest.owner.Linked reachable :=
    fun h => h.map (fun l => (hf l).1) fun l hl => (hf l).2.trans hl
  exact h.imp hmap fun h =>
    ⟨hmap h.1, h.2.fallback, h.2.timeout, h.2.waiting, h.2.events⟩

theorem World.Secure.exists_link {w : World τ (Client σ)} (h : w.Secure) :
    ∃ l, w.rest.owner.link = some l ∧ l.overhears = {} := by
  rcases h with ⟨-, l, hl, hplain, -⟩ | ⟨⟨-, l, hl, hplain, -⟩, -⟩ <;> exact ⟨l, hl, hplain⟩

theorem withLink_some {m : Link → Run τ (Client σ) Reply} {l : Link} {w : World τ (Client σ)}
    (hl : w.rest.owner.link = some l) : withLink m w = m l w := by
  simp only [withLink, Act.bind_apply, Client.link?, hl]

section Steps

variable [Zero τ] [Add τ] [LT τ] [DecidableLT τ] [LE τ] [DecidableLE τ]

/-- What every call of code outside keeps of the owner, every step keeps. -/
theorem World.Path.owner {P : ο → Prop} {out : Outside τ ο} {w w' : World τ ο}
    (hshown : ∀ s {w}, P w.rest.owner → P (out.present s w).2.rest.owner)
    (h : World.Path out w w') (hw : P w.rest.owner) : P w'.rest.owner := by
  induction h with
  | refl => exact hw
  | tail _ hstep ih =>
    cases hstep with
    | shows s _ _ => exact hshown s ih
    | _ => exact ih

namespace World.Parted

variable {out : Outside τ (Client σ)} {w : World τ (Client σ)}
  (hshown : ∀ s, Stays World.Parted (out.present s))

theorem close (h : w.Parted) : (View.close w).2.Parted := by
  cases hc : w.rest.view.closed with
  | true => rwa [View.close_of_closed hc]
  | false =>
    rw [View.close_of_open hc]
    obtain ⟨hlinked, -, htimeout, hwaiting, hevents⟩ := h
    refine ⟨hlinked, rfl, ?_, ?_, hevents⟩
    · exact rfl
    · refine Clock.holdsReconnect_of_subset hwaiting fun t ht => ?_
      have hleft : t ∈ (w.rest.view.timeout.cancel
        (w.rest.view.deferral.cancel w.clock).2).2.timers := ht
      exact Slot.mem_of_cancel (Slot.mem_of_cancel hleft)

variable [Sub τ]

include hshown

/-- A report is acted on or put off, if it is not one that would be shown as an assumption. -/
theorem receive (h : w.Parted) {s : Status} (hs : s.isReconnecting = false) :
    (View.receive out s w).2.Parted := by
  rw [View.receive_apply]
  by_cases hc : w.rest.view.closed
  · rw [if_pos hc]
    exact h
  · rw [if_neg hc]
    by_cases hsoon : w.rest.view.tooSoon w.clock.now
    · rw [if_pos hsoon]
      obtain ⟨hlinked, hfallback, htimeout, hwaiting, hevents⟩ := h.record (n := .debouncing s) rfl
      refine ⟨hlinked, hfallback, htimeout, ?_, hevents⟩
      refine Clock.holdsReconnect_eq_false.mpr fun t ht => ?_
      rcases Slot.mem_of_schedule ht with hnew | hold
      · rw [hnew]
        exact hs
      · exact Clock.holdsReconnect_eq_false.mp hwaiting t hold
    · rw [if_neg hsoon, View.act, View.current_bind]
      have hnone : w.rest.view.fallback.isNone := by rw [h.2.fallback]; rfl
      have hrest : World.Parted { w with rest.view.lastActed := w.clock.now } :=
        ⟨h.1, h.2.fallback, h.2.timeout, h.2.waiting, h.2.events⟩
      have hreveal : View.reveal out s = View.commit out s := if_neg (by simpa using hs)
      rw [if_pos hnone, hreveal]
      exact hrest.commit hshown s

/-- What falls due is a report, and none that would be shown as an assumption. -/
theorem fire {limit : Option τ} {t : Timer τ Alarm} {clock : Clock τ Alarm} (h : w.Parted)
    (hpop : w.clock.popDue limit = (some t, clock)) :
    (View.fire out t { w with clock }).2.Parted := by
  obtain ⟨ht, -, htimers⟩ := Clock.popDue_some hpop
  have hpopped : World.Parted { w with clock } := by
    refine h.of_clock fun u hu => ?_
    rw [htimers] at hu
    exact List.mem_of_mem_eraseP hu
  rw [View.fire_apply]
  by_cases hslot : (t.call.slot w.rest.view).armed = some t.serial
  · rw [if_pos hslot]
    rcases t with ⟨deadline, serial, s | _⟩
    · have hs : s.isReconnecting = false := Clock.holdsReconnect_eq_false.mp h.2.waiting _ ht
      obtain ⟨hlinked, hfallback, htimeout, hwaiting, hevents⟩ := hpopped
      have hrecalled : World.Parted
          { w with clock, rest.view.deferral := w.rest.view.deferral.emptied } :=
        ⟨hlinked, hfallback, htimeout, hwaiting, hevents⟩
      exact hrecalled.receive hshown hs
    · have hnone : w.rest.view.timeout.armed = none := h.2.timeout
      exact absurd (hnone.symm.trans hslot) (by simp)
  · rw [if_neg hslot]
    exact hpopped

end World.Parted
end Steps

/-! ### Operations -/

section Operations

variable [Zero τ] [Add τ] [Sub τ] [LT τ] [DecidableLT τ] [LE τ] [DecidableLE τ]
  {host : Host τ σ} {w : World τ (Client σ)}

theorem outside_called (hhost : host.CallsNothing) (n : ℕ) :
    (∀ s {w : World τ (Client σ)}, w.rest.owner.Undisturbed →
      w.Called ((outside host n).present s w).2) ∧
      ∀ c (w : World τ (Client σ)), w.Called ((outside host n).send c w).2 := by
  cases n with
  | zero =>
    have hsame : ∀ w : World τ (Client σ), w.Called w :=
      fun w => ⟨w.rest.owner.memory, w.rest.events, rfl, fun _ he _ => he⟩
    exact ⟨fun _ w _ => hsame w, fun _ w => hsame w⟩
  | succ n =>
    refine ⟨fun s w hw => ?_, fun c w => .of_respond hhost _ _ w⟩
    show w.Called ((tellLink >>= fun _ => respond host _ (.shown s)) w).2
    rw [Act.bind_apply, tellLink_of_undisturbed hw]
    exact .of_respond hhost _ _ w

variable (hhost : host.CallsNothing) (n : ℕ)

include hhost

theorem outside_linked (reachable : Bool) (s : Status) {w : World τ (Client σ)}
    (h : w.rest.owner.Linked reachable) :
    ((outside host n).present s w).2.rest.owner.Linked reachable :=
  h.called ((outside_called hhost n).1 s h.undisturbed)

theorem outside_parted (s : Status) : Stays World.Parted ((outside host n).present s) := by
  intro w h
  have hcalled := (outside_called hhost n).1 s h.1.undisturbed
  exact ⟨h.1.called hcalled, h.2.called hcalled⟩

namespace World.Secure

/-- Moving time keeps a client secure, for what falls due does. -/
theorem fire {limit : Option τ} {t : Timer τ Alarm} {clock : Clock τ Alarm} (h : w.Secure)
    (hpop : w.clock.popDue limit = (some t, clock)) :
    (View.fire (outside host n) t { w with clock }).2.Secure :=
  h.imp (World.Path.owner (outside_linked hhost n true) (.fire hpop))
    fun h => h.fire (outside_parted hhost n) hpop

/-- A report that can be read shows that the service is within reach. -/
theorem handle (h : w.Secure) (r : Report) : (Link.handle (outside host n) r w).2.Secure := by
  unfold Link.handle
  cases r.read with
  | error fault =>
    dsimp only
    split
    · exact h.record rfl
    · exact h
  | ok s =>
    have hreached : (Link.change ({ · with reachable := true }) w).2.rest.owner.Linked true := by
      rcases h with h | h
      · exact h.map (fun _ => rfl) fun _ _ => rfl
      · exact h.1.map (fun _ => rfl) fun _ _ => rfl
    have hpath : World.Path (outside host n) (Link.change ({ · with reachable := true }) w).2
        (View.receive (outside host n) s (Link.change ({ · with reachable := true }) w).2).2 :=
      .receive s _
    have hreceived := hpath.owner (outside_linked hhost n true) hreached
    refine Stays.bind_at (I := World.Secure) (.inl hreached) fun _ w₁ hrun _ => ?_
    obtain rfl : _ = w₁ := congrArg Prod.snd hrun
    exact Stays.bind_at (.inl hreceived) fun _ _ _ h => h

theorem takeIn (h : w.Secure) (r : Report) (l : Link) (hl : l.overhears = {}) :
    (l.takeIn (outside host n) r w).2.Secure := by
  have hhandle : Stays World.Secure (Functor.discard (Link.handle (outside host n) r)) :=
    Stays.discard fun _ h => h.handle hhost n r
  unfold Link.takeIn
  by_cases hlistening : l.listening
  · rw [if_pos hlistening, hl]
    exact hhandle w h
  · rw [if_neg hlistening]
    exact h

/-- A user action is permitted only while the service is within reach. -/
theorem command (h : w.Secure) (fuel : ℕ) (c : Command) :
    ((Op.command c).run (outside host n) fuel w).2.Secure := by
  rcases h with h | h
  · obtain ⟨l, hl, -, -⟩ := h.2
    rw [Op.run_command hl]
    split
    · have hpath : World.Path (outside host n) w (View.assume (outside host n) c.assumption w).2 :=
        .assume _ w
      have hassumed := hpath.owner (outside_linked hhost n true) h
      refine Stays.bind_at (I := World.Secure) (.inl hassumed) fun _ w₁ hrun _ => ?_
      obtain rfl : _ = w₁ := congrArg Prod.snd hrun
      have hsent := hassumed.called ((outside_called hhost n).2 c _)
      exact Stays.bind_at (Stays.send (.inl hsent)) fun _ _ _ h => h
    · exact .inl h
  · obtain ⟨hpolicy, l, hl, -, hreachable⟩ := h.1
    have hrefused : (w.rest.owner.policy.permits c (.bool l.reachable) l.loggedIn
        w.rest.view.status.phase).truth = false := by
      rw [hpolicy, hreachable]
      cases c <;> rfl
    rw [Op.run_command hl, if_neg (by simp [hrefused])]
    exact .inr (h.record rfl)

omit hhost [Sub τ] in
/-- The service is lost, while no report waits that would be shown as an assumption. -/
theorem lose (h : w.Secure) (hwaiting : w.clock.holdsReconnect = false)
    (hevents : ∀ e ∈ w.rest.events, e.isAssumption = false) : (Link.lose w).2.Parted := by
  have hlinked : Client.Linked false
      { w.rest.owner with link := w.rest.owner.link.map ({ · with reachable := false }) } := by
    rcases h with h | h
    · exact h.map (fun _ => rfl) fun _ _ => rfl
    · exact h.1.map (fun _ => rfl) fun _ _ => rfl
  refine ⟨hlinked, rfl, ?_, ?_, fun e he => ?_⟩
  · exact rfl
  · exact Clock.holdsReconnect_of_subset hwaiting fun t ht => Slot.mem_of_cancel ht
  · rcases List.mem_cons.mp he with rfl | he
    · rfl
    · exact hevents e he

/-- **Every operation on the link or the clock keeps a client secure**, as long as no report waits
that would be shown as an assumption when the service is lost. -/
theorem op (h : w.Secure) (fuel : ℕ) {op : Op τ} (hop : op.onLink)
    (hloses : op.loses → w.clock.holdsReconnect = false ∧
      ∀ e ∈ w.rest.events, e.isAssumption = false) :
    (op.run (outside host n) fuel w).2.Secure := by
  have hfire : ∀ {w : World τ (Client σ)} {limit t clock}, w.Secure →
      w.clock.popDue limit = (some t, clock) →
      (View.fire (outside host n) t { w with clock }).2.Secure := fun h hpop => h.fire hhost n hpop
  have htidied : ∀ {w : World τ (Client σ)}, w.Secure →
      World.Secure { w with clock := w.clock.tidied } :=
    fun h => h.imp id fun h => h.of_clock fun _ ht => ht
  have hmove : ∀ {w : World τ (Client σ)} t, w.Secure →
      World.Secure { w with clock := w.clock.moveTo t } :=
    fun _ h => h.imp id fun h => h.of_clock fun _ ht => ht
  obtain ⟨l, hl, hplain⟩ := h.exists_link
  cases op <;> simp only [Op.onLink, Bool.false_eq_true] at hop
  case close =>
    have hdeaf : (Link.change ({ · with listening := false }) w).2.Secure :=
      h.change fun _ => ⟨rfl, rfl⟩
    have hclosed : (View.close (Link.change ({ · with listening := false }) w).2).2.Secure :=
      hdeaf.imp (World.Path.owner (outside_linked hhost n true) (.close _)) fun h => h.close
    simp only [Op.run, silently_apply]
    exact hclosed
  case advance delta => exact (Stays.advance htidied hfire hmove fuel delta).silently w h
  case advanceTo time => exact (Stays.advanceTo htidied hfire hmove fuel time).silently w h
  case advanceNowhere kind? => exact (Stays.advanceNowhere htidied hfire fuel kind?).silently w h
  case idle most => exact (Stays.drainAll htidied hfire most _).silently w h
  case ask reachable loggedIn => exact h
  case command c => exact h.command hhost n fuel c
  case handle r =>
    rw [Op.run, withLink_some hl]
    exact Stays.bind_at (h.handle hhost n r) fun _ _ _ h => h
  case publish r =>
    rw [Op.run, withLink_some hl, silently_apply]
    exact h.takeIn hhost n r l hplain
  case lose =>
    obtain ⟨hwaiting, hevents⟩ := hloses rfl
    rw [Op.run, withLink_some hl, silently_apply]
    exact .inr (h.lose hwaiting hevents)
  case publishLoss =>
    obtain ⟨hwaiting, hevents⟩ := hloses rfl
    rw [Op.run, withLink_some hl]
    by_cases hlistening : l.listening
    · simp only [hlistening, if_true]
      exact Stays.bind_at (.inr (h.lose hwaiting hevents)) fun _ _ _ h => h
    · simp only [hlistening]
      exact h
  case logIn flag =>
    rw [Op.run, withLink_some hl, silently_apply]
    exact h.change fun _ => ⟨rfl, rfl⟩

end World.Secure

variable {fuel : ℕ} {delays : Delays τ} {now : τ} {client : Client σ}

/-- Whether no report waits that would be shown as an assumption when the service is lost. -/
def Session.LosesCalmly (host : Host τ σ) (fuel : ℕ) : List (Op τ) → World τ (Client σ) → Prop
  | [], _ => True
  | op :: ops, w => (op.loses → w.clock.holdsReconnect = false) ∧
    LosesCalmly host fuel ops (Session.step host fuel op w).2.2

omit hhost in
theorem Session.losesCalmly_concat {ops : List (Op τ)} {op : Op τ}
    (h : Session.LosesCalmly host fuel (ops ++ [op]) w) : Session.LosesCalmly host fuel ops w ∧
      (op.loses → (Session.run host fuel ops w).clock.holdsReconnect = false) := by
  induction ops generalizing w with
  | nil => exact ⟨trivial, h.1⟩
  | cons o ops ih => exact ⟨⟨h.1, (ih h.2).1⟩, (ih h.2).2⟩

/-- A client stays secure through a session, by induction on the operations, and nothing is left to
tell between them. -/
theorem World.Secure.run (h : w.Secure) (hevents : w.rest.events = []) {ops : List (Op τ)}
    (hops : ∀ op ∈ ops, op.onLink) (hcalm : Session.LosesCalmly host fuel ops w) :
    (Session.run host fuel ops w).Secure ∧ (Session.run host fuel ops w).rest.events = [] := by
  induction ops generalizing w with
  | nil => exact ⟨h, hevents⟩
  | cons op ops ih =>
    have hstep := h.op hhost fuel fuel (hops op (by simp)) fun hloses =>
      ⟨hcalm.1 hloses, by simp [hevents]⟩
    have htold : (Session.step host fuel op w).2.2.Secure := hstep.imp id fun h =>
      ⟨h.1, h.2.fallback, h.2.timeout, h.2.waiting, fun _ he => by cases he⟩
    exact ih htold rfl (fun o ho => hops o (by simp [ho])) hcalm.2

/-- **No assumption while the service is out of reach**, if at each loss no report waits that would
be shown as one. After an operation that leaves the service out of reach nothing is assumed, no
alarm is set for the end of an assumption, and none was made by the operation. -/
theorem Session.unassuming_while_lost (hclient : client.Linked true) {ops : List (Op τ)} {op : Op τ}
    (hops : ∀ o ∈ ops ++ [op], o.onLink)
    (hcalm : Session.LosesCalmly host fuel (ops ++ [op]) (Session.start delays now client))
    {l : Link} :
    let r := Session.step host fuel op (Session.run host fuel ops (Session.start delays now client))
    r.2.2.rest.owner.link = some l → l.reachable = false →
      r.2.2.rest.view.fallback = none ∧ r.2.2.rest.view.timing = false ∧
        ∀ e ∈ r.2.1, e.isAssumption = false := by
  intro r hl hlost
  obtain ⟨hbefore, hlast⟩ := Session.losesCalmly_concat hcalm
  have hstart : (Session.start delays now client).Secure := .inl hclient
  obtain ⟨hsecure, hevents⟩ := hstart.run hhost rfl (fun o ho => hops o (by simp [ho])) hbefore
  have hstep := hsecure.op hhost fuel fuel (hops op (by simp)) fun hloses =>
    ⟨hlast hloses, by simp [hevents]⟩
  rcases hstep with ⟨-, l', hl', -, hreachable⟩ | ⟨-, hunassuming⟩
  · obtain rfl : l = l' := Option.some.inj (hl.symm.trans hl')
    rw [hreachable] at hlost
    contradiction
  · refine ⟨hunassuming.fallback, congrArg Option.isSome hunassuming.timeout, fun e he => ?_⟩
    exact hunassuming.events e (List.mem_reverse.mp he)

end Operations

/-- A user connects, and the service is lost while the report that the tunnel is up waits. It is
shown when its quiet window is over, and nothing is assumed any more. -/
theorem Session.unassuming_while_lost_report_waiting :
    let host : Host ℤ Unit := fun memory _ =>
      (memory, { ending := some (.failure (.foreign "OSError" "")) })
    let client : Client Unit := { link := some { loggedIn := .bool true }, memory := () }
    let ops : List (Op ℤ) :=
      [.command .connect, .advance 100, .handle (.ready (.bare .connected)), .lose]
    let w := Session.start ⟨150, 3000⟩ 0 client
    let r := Session.step host 5 (.advance 150) (Session.run host 5 ops w)
    host.CallsNothing ∧ client.Linked true ∧ (∀ o ∈ ops ++ [.advance 150], o.onLink) ∧
      Session.LosesCalmly host 5 (ops ++ [.advance 150]) w ∧
      r.2.2.rest.view.status = .bare .connected ∧ r.2.2.rest.view.fallback = none ∧
      r.2.2.rest.view.timing = false ∧ ∀ e ∈ r.2.1, e.isAssumption = false := by
  have hops : ∀ o ∈ ([.command .connect, .advance 100, .handle (.ready (.bare .connected)),
      .lose] ++ [.advance 150] : List (Op ℤ)), o.onLink := by
    simp [Op.onLink]
  refine ⟨fun _ _ => rfl, ⟨rfl, _, rfl, rfl, rfl⟩, hops, ?_, rfl, ?_⟩
  · exact ⟨nofun, nofun, nofun, fun _ => rfl, nofun, trivial⟩
  · refine Session.unassuming_while_lost (l := { loggedIn := .bool true, reachable := false })
      (fun _ _ => rfl) ⟨rfl, _, rfl, rfl, rfl⟩ hops ?_ rfl rfl
    exact ⟨nofun, nofun, nofun, fun _ => rfl, nofun, trivial⟩

/-- A report that the service reconnects waits when the service is lost. When its quiet window is
over it is shown as an assumption, although nobody is there who could confirm it. -/
theorem Session.assumes_while_lost :
    let host : Host ℤ Unit := fun memory _ => (memory, {})
    let client : Client Unit := { link := some { loggedIn := .bool true }, memory := () }
    let ops : List (Op ℤ) := [.advance 200, .handle (.ready (.bare .connected)),
      .handle (.ready (.bare (.disconnecting .reconnect))), .lose]
    let r := Session.step host 5 (.advance 150)
      (Session.run host 5 ops (Session.start ⟨150, 3000⟩ 0 client))
    host.CallsNothing ∧ client.Linked true ∧ (∀ o ∈ ops ++ [.advance 150], o.onLink) ∧
      r.2.2.rest.owner.link.map Link.reachable = some false ∧
      r.2.2.rest.view.status = .bare .connecting ∧
      r.2.2.rest.view.fallback = some (.bare (.disconnecting .reconnect)) ∧
      r.2.2.rest.view.timing = true :=
  ⟨fun _ _ => rfl, ⟨rfl, _, rfl, rfl, rfl⟩, by simp [Op.onLink], rfl, rfl, rfl, rfl⟩

end TunnelView
