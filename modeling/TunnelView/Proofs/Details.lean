import TunnelView.Proofs.Abreast.Link
import TunnelView.Proofs.Steps

/-!
# Details make no difference

Endpoint, location and cause of a report are for display. Two sessions whose reports agree in phase
and aim, and may differ in all else, are the same but for those details after every step: the time,
the calls on the clock, what waits and what is closed, the answers, what was shown and sent and when,
and the conditions on show and behind it.

Details are not mixed either: whatever is on show is a report that came in, as it came in, unless it
is assumed or nothing is known yet.

Key definitions: `Op.Agrees`, `Host.Agree`, `Status.Known`, `World.Agrees`.
Key theorems: `outside_parallels`, `Session.run_abreast`, `Session.details_make_no_difference`.
-/

namespace TunnelView

variable {τ σ σ' : Type}

/-! ### Reports that agree -/

/-- The condition that a report names, if it can be read. -/
def Report.condition? (r : Report) : Option Condition := r.read.toOption.map Status.condition

/-- The same operation, or two reports that name the same condition or cannot be read. -/
inductive Op.Agrees : Op τ → Op τ → Prop
  | notify {r r' : Report} (h : r.condition? = r'.condition?) : Agrees (.notify r) (.notify r')
  | handle {r r' : Report} (h : r.condition? = r'.condition?) : Agrees (.handle r) (.handle r')
  | publish {r r' : Report} (h : r.condition? = r'.condition?) : Agrees (.publish r) (.publish r')
  | same (op : Op τ) : Agrees op op

/-- Two operations of one kind that bring reports which cannot be read. -/
inductive Op.Unreadable : Op τ → Op τ → Prop
  | notify {r r' : Report} {f f' : Report.Fault} (hr : r.read = .error f)
    (hr' : r'.read = .error f') : Unreadable (.notify r) (.notify r')
  | handle {r r' : Report} {f f' : Report.Fault} (hr : r.read = .error f)
    (hr' : r'.read = .error f') : Unreadable (.handle r) (.handle r')
  | publish {r r' : Report} {f f' : Report.Fault} (hr : r.read = .error f)
    (hr' : r'.read = .error f') : Unreadable (.publish r) (.publish r')

/-- The status of the report that an operation brings, if it can be read. -/
def Op.brings? (op : Op τ) : Option Status := op.report?.bind fun r => r.read.toOption

/-- The statuses of the reports that operations bring. -/
def Op.brought (ops : List (Op τ)) : List Status := ops.filterMap Op.brings?

/-- A status that nobody made up: it came in in a report, or it is assumed, or it is that of a
service about which nothing is known. -/
inductive Status.Known (brought : List Status) : Status → Prop
  | brought {s : Status} (h : s ∈ brought) : Known brought s
  | assumed (a : Assumption) : Known brought a.status
  | initial : Known brought (.bare .disconnected)

/-- Two statuses with one condition, known from the operations of two sessions. -/
structure Status.Counterparts (brought brought' : List Status) (s s' : Status) : Prop where
  condition : s.condition = s'.condition
  left : s.Known brought
  right : s'.Known brought'

theorem Status.kindred_counterparts (brought brought' : List Status) :
    Kindred (Counterparts brought brought') where
  condition h := h.condition
  assumption a := ⟨rfl, .assumed a, .assumed a⟩

section Reports

variable {brought brought' : List Status}

/-- Reports that name the same condition stand for statuses that know it, or cannot be read. -/
theorem Report.counterparts_or_unreadable {r r' : Report} (h : r.condition? = r'.condition?)
    (hr : ∀ s, r.read.toOption = some s → s ∈ brought)
    (hr' : ∀ s, r'.read.toOption = some s → s ∈ brought') :
    (∃ s s', r.read = .ok s ∧ r'.read = .ok s' ∧ s.Counterparts brought brought' s') ∨
      ∃ f f', r.read = .error f ∧ r'.read = .error f' := by
  unfold Report.condition? at h
  rcases hread : r.read with f | s <;> rcases hread' : r'.read with f' | s' <;>
    rw [hread, hread'] at h
  · exact .inr ⟨f, f', rfl, rfl⟩
  · contradiction
  · contradiction
  · refine .inl ⟨s, s', rfl, rfl, Option.some.inj h, .brought (hr s ?_), .brought (hr' s' ?_)⟩
    · rw [hread]
      rfl
    · rw [hread']
      rfl

theorem Report.alike_of_read {r r' : Report} {s s' : Status} (hr : r.read = .ok s)
    (hr' : r'.read = .ok s') (h : s.Counterparts brought brought' s') :
    r.Alike (Status.Counterparts brought brought') (fun _ _ => True) r' := by
  unfold Report.Alike
  rw [hr, hr']
  exact h

/-- Operations that agree are alike, unless they bring reports that cannot be read. -/
theorem Op.Agrees.alike {op op' : Op τ} (h : op.Agrees op')
    (hop : ∀ s, op.brings? = some s → s ∈ brought)
    (hop' : ∀ s, op'.brings? = some s → s ∈ brought') :
    op.Alike (Status.Counterparts brought brought') (fun _ _ => True) op' ∨ op.Unreadable op' := by
  have hnotify : ∀ {r r' : Report}, r.condition? = r'.condition? →
      (∀ s, r.read.toOption = some s → s ∈ brought) →
      (∀ s, r'.read.toOption = some s → s ∈ brought') →
      (Op.notify r : Op τ).Alike (Status.Counterparts brought brought') (fun _ _ => True)
        (.notify r') ∨ (Op.notify r : Op τ).Unreadable (.notify r') := by
    intro r r' hc hr hr'
    obtain ⟨s, s', hs, hs', hss'⟩ | ⟨f, f', hf, hf'⟩ :=
      Report.counterparts_or_unreadable hc hr hr'
    · exact .inl (.notify hs hs' hss')
    · exact .inr (.notify hf hf')
  have hhandle : ∀ {r r' : Report}, r.condition? = r'.condition? →
      (∀ s, r.read.toOption = some s → s ∈ brought) →
      (∀ s, r'.read.toOption = some s → s ∈ brought') →
      r.Alike (Status.Counterparts brought brought') (fun _ _ => True) r' ∨
        ∃ f f', r.read = .error f ∧ r'.read = .error f' := by
    intro r r' hc hr hr'
    refine (Report.counterparts_or_unreadable hc hr hr').imp_left ?_
    exact fun ⟨s, s', hs, hs', hss'⟩ => Report.alike_of_read hs hs' hss'
  cases h with
  | notify hc => exact hnotify hc hop hop'
  | handle hc =>
    exact (hhandle hc hop hop').imp .handle fun ⟨_, _, hf, hf'⟩ => .handle hf hf'
  | publish hc =>
    exact (hhandle hc hop hop').imp .publish fun ⟨_, _, hf, hf'⟩ => .publish hf hf'
  | same =>
    cases op with
    | notify r => exact hnotify rfl hop hop'
    | handle r => exact (hhandle rfl hop hop').imp .handle fun ⟨_, _, hf, hf'⟩ => .handle hf hf'
    | publish r =>
      exact (hhandle rfl hop hop').imp .publish fun ⟨_, _, hf, hf'⟩ => .publish hf hf'
    | _ => exact .inl (.same rfl)

end Reports

/-! ### Hosts that agree -/

/-- The stop by which a host ends a call, unless it is a failure. -/
def Response.interrupt? (r : Response τ) : Option (Stop τ) := r.ending.filter (!·.isFailure)

/-- Two hosts that call nothing and do not look at details: called with the same but for details, as
long as their memories are related, they interrupt in the same way, and the sending of commands ends
in the same way. Whether one of them fails when it is shown a status, it may decide alone. -/
structure Host.Agree (M : σ → σ' → Prop) (host : Host τ σ) (host' : Host τ σ') : Prop where
  callsNothing : host.CallsNothing
  callsNothing' : host'.CallsNothing
  shown : ∀ {m m' s s'}, M m m' → s.condition = s'.condition →
    M (host m (.shown s)).1 (host' m' (.shown s')).1 ∧
      (host m (.shown s)).2.interrupt? = (host' m' (.shown s')).2.interrupt?
  sent : ∀ {m m'} (c : Command), M m m' → M (host m (.sent c)).1 (host' m' (.sent c)).1 ∧
    (host m (.sent c)).2.ending = (host' m' (.sent c)).2.ending

/-- The same call of a host but for details. -/
inductive Event.Alike (R : Status → Status → Prop) : Event τ → Event τ → Prop
  | commit (time : τ) {s s' : Status} (h : R s s') : Alike R (.commit time s) (.commit time s')
  | command (time : τ) (c : Command) : Alike R (.command time c) (.command time c)

/-- Whether an event is a call of the host. -/
def Event.isCall : Event τ → Bool
  | .log _ => false
  | _ => true

/-- The calls of the host among events. -/
def Event.calls (events : List (Event τ)) : List (Event τ) := events.filter Event.isCall

/-- What stands around two views: the same link and policy, memories that are related, and the same
calls but for details. -/
structure Agreed (R : Status → Status → Prop) (M : σ → σ' → Prop) (c : Client σ)
    (e : List (Event τ)) (c' : Client σ') (e' : List (Event τ)) : Prop where
  link : c.link = c'.link
  policy : c.policy = c'.policy
  memory : M c.memory c'.memory
  calls : List.Forall₂ (Event.Alike R) (Event.calls e) (Event.calls e')

variable {R : Status → Status → Prop} {M : σ → σ' → Prop} {host : Host τ σ} {host' : Host τ σ'}
  {w : World τ (Client σ)} {w' : World τ (Client σ')}

theorem courteous_agreed : Courteous R (fun _ _ => True) (Agreed (τ := τ) R M) where
  note _ h := ⟨h.link, h.policy, h.memory, h.calls⟩
  same h := h.link
  policy h := h.policy
  link f h := ⟨by rw [h.link], h.policy, h.memory, h.calls⟩

theorem Event.Alike.calls_cons {e e' : Event τ} {events events' : List (Event τ)}
    (he : e.Alike R e')
    (h : List.Forall₂ (Event.Alike R) (Event.calls events) (Event.calls events')) :
    List.Forall₂ (Event.Alike R) (Event.calls (e :: events)) (Event.calls (e' :: events')) := by
  cases he with
  | commit time hs => exact .cons (.commit time hs) h
  | command time c => exact .cons (.command time c) h

/-- What a call leaves behind agrees if the memories that it leaves do. -/
theorem Abreast.answered (h : Abreast R (Agreed R M) w w') (call call' : Call)
    (hmemory : M (host w.rest.owner.memory call).1 (host' w'.rest.owner.memory call').1)
    (hcall : (call.event w.clock.now).Alike R (call'.event w'.clock.now)) :
    Abreast R (Agreed R M) (w.answered host call) (w'.answered host' call') :=
  ⟨h.clock, h.view, h.around.link, h.around.policy, hmemory, hcall.calls_cons h.around.calls⟩

/-- Endings with the same interrupt look the same from behind the guard, but for notes. -/
theorem InStep.settled (h : Abreast R (Agreed R M) w w') (ending ending' : Option (Stop τ))
    (he : ending.filter (!·.isFailure) = ending'.filter (!·.isFailure)) :
    InStep Eq R (Agreed R M)
      (guarded (View.showing.settle ()) (fun w => (ending.elim (.ok ()) .error, w)) w)
      (guarded (View.showing.settle ()) (fun w => (ending'.elim (.ok ()) .error, w)) w') := by
  -- the note of a failure is no call
  have hnoted : ∀ (f : Failure τ), Abreast R (Agreed R M)
      (w.record (.log (.failed View.showing.message f))) w' :=
    fun f => ⟨h.clock, h.view, h.around.link, h.around.policy, h.around.memory, h.around.calls⟩
  have hnoted' : ∀ (f : Failure τ) {w}, Abreast R (Agreed R M) w w' →
      Abreast R (Agreed R M) w (w'.record (.log (.failed View.showing.message f))) :=
    fun f _ h => ⟨h.clock, h.view, h.around.link, h.around.policy, h.around.memory, h.around.calls⟩
  rcases ending with _ | f | message | _ <;> rcases ending' with _ | f' | message' | _ <;>
    simp [Option.filter, Stop.isFailure] at he
  · exact ⟨.ok rfl, h⟩
  · exact ⟨.ok rfl, hnoted' f' h⟩
  · exact ⟨.ok rfl, hnoted f⟩
  · exact ⟨.ok rfl, hnoted' f' (hnoted f)⟩
  · rw [he]
    exact ⟨.error _, h⟩
  · exact ⟨.error _, h⟩

/-! ### Worlds that agree -/

/-- Two clients with the same link and policy, and memories that are related. -/
structure Client.Agree (M : σ → σ' → Prop) (c : Client σ) (c' : Client σ') : Prop where
  link : c.link = c'.link
  policy : c.policy = c'.policy
  memory : M c.memory c'.memory

theorem Abreast.start (hR : R (.bare .disconnected) (.bare .disconnected)) (d : Delays τ) (now : τ)
    {client : Client σ} {client' : Client σ'} (hc : client.Agree M client') :
    Abreast R (Agreed R M) (Session.start d now client) (Session.start d now client') where
  clock := ⟨rfl, .nil, rfl, rfl, rfl⟩
  view := ⟨rfl, rfl, hR, .none, rfl, rfl, rfl⟩
  around := ⟨hc.link, hc.policy, hc.memory, .nil⟩

/-- Two worlds in which the same is to be seen but for details. -/
structure World.Agrees (w : World τ (Client σ)) (w' : World τ (Client σ')) : Prop where
  now : w.clock.now = w'.clock.now
  timers : (w.clock.timers.map fun t => (t.deadline, t.serial)) =
    w'.clock.timers.map fun t => (t.deadline, t.serial)
  link : w.rest.owner.link = w'.rest.owner.link
  status : w.rest.view.status.condition = w'.rest.view.status.condition
  fallback : w.rest.view.fallback.map Status.condition =
    w'.rest.view.fallback.map Status.condition
  lastActed : w.rest.view.lastActed = w'.rest.view.lastActed
  timing : w.rest.view.timing = w'.rest.view.timing
  deferring : w.rest.view.deferring = w'.rest.view.deferring
  closed : w.rest.view.closed = w'.rest.view.closed

theorem Abreast.agrees (hR : Kindred R) (h : Abreast R (Agreed R M) w w') : w.Agrees w' where
  now := h.clock.now
  timers := by
    have htimers := h.clock.timers
    generalize w.clock.timers = l at htimers
    generalize w'.clock.timers = l' at htimers
    induction htimers with
    | nil => rfl
    | cons ht _ ih => rw [List.map_cons, List.map_cons, ih, ht.deadline, ht.serial]
  link := h.around.link
  status := hR.condition h.view.status
  fallback := by
    have hfallback := h.view.fallback
    generalize w.rest.view.fallback = f at hfallback
    generalize w'.rest.view.fallback = f' at hfallback
    cases hfallback with
    | none => rfl
    | some hs => exact congrArg some (hR.condition hs)
  lastActed := h.view.lastActed
  timing := by rw [View.timing, View.timing, h.view.timeout]
  deferring := by rw [View.deferring, View.deferring, h.view.deferral]
  closed := h.view.closed

/-- The answer to a report that cannot be read: the view says what is wrong with it, and a link drops
it, or fails where that has no text. -/
inductive Op.Refused : Op τ → Except (Stop τ) Reply → Prop
  | notify {r : Report} {f : Report.Fault} (hr : r.read = .error f) :
    Refused (.notify r) (.error (.failure (.report f)))
  | handle {r : Report} {f : Report.Fault} (hr : r.read = .error f) :
    Refused (.handle r) (if f.isForeseen then .ok (.flag false) else .error (.failure (.report f)))
  | publish {r : Report} {f : Report.Fault} (hr : r.read = .error f) :
    Refused (.publish r) (if f.isForeseen then .ok .nothing else .error (.failure (.report f)))

/-- The same answer, unless both refuse a report that they cannot read. -/
def SameAnswer (op op' : Op τ) (answer answer' : Except (Stop τ) Reply) : Prop :=
  answer = answer' ∨ op.Refused answer ∧ op'.Refused answer'

variable {brought brought' : List Status}

variable [Zero τ] [Add τ] [Sub τ] [LT τ] [DecidableLT τ] [LE τ] [DecidableLE τ]

/-- **Hosts that agree look the same from behind the guard**, whatever details they are shown. -/
theorem outside_parallels (hR : Kindred R) (hhost : host.Agree M host') (n : ℕ) :
    (outside host n).Parallels R (Agreed R M) (outside host' n) := by
  intro s s' hs w w' h
  cases n with
  | zero => exact InStep.settled h (some .exhausted) (some .exhausted) rfl
  | succ n =>
    let settled {σ : Type} (r : Except (Stop τ) Unit × World τ (Client σ)) :=
      guarded (View.showing.settle ()) (fun _ => r) r.2
    refine (h.tellLink courteous_agreed).bind_to
      (P := fun r r' => InStep Eq R (Agreed R M) (settled r) (settled r'))
      (fun stop w₁ w₁' h => ?_) fun {_ _} _ w₁ w₁' h => ?_
    · exact InStep.settled h (some stop) (some stop) rfl
    · obtain ⟨hmemory, hending⟩ := hhost.shown h.around.memory (hR.condition hs)
      have hevent : (Event.commit w₁.clock.now s).Alike R (.commit w₁'.clock.now s') := by
        rw [h.clock.now]
        exact .commit _ hs
      have hanswered := h.answered (.shown s) (.shown s') hmemory hevent
      show InStep Eq R (Agreed R M) (settled (respond host _ (.shown s) w₁))
        (settled (respond host' _ (.shown s') w₁'))
      rw [respond_of_callsNothing hhost.callsNothing, respond_of_callsNothing hhost.callsNothing']
      exact InStep.settled hanswered _ _ hending

theorem inStep_send (hhost : host.Agree M host') (n : ℕ) (c : Command)
    (h : Abreast R (Agreed R M) w w') :
    InStep Eq R (Agreed R M) ((outside host n).send c w) ((outside host' n).send c w') := by
  cases n with
  | zero => exact .stop h _
  | succ n =>
    obtain ⟨hmemory, hending⟩ := hhost.sent c h.around.memory
    have hevent : (Event.command w.clock.now c).Alike R (.command w'.clock.now c) := by
      rw [h.clock.now]
      exact .command _ c
    have hanswered := h.answered (.sent c) (.sent c) hmemory hevent
    show InStep _ _ _ (respond host _ (.sent c) w) (respond host' _ (.sent c) w')
    rw [respond_of_callsNothing hhost.callsNothing, respond_of_callsNothing hhost.callsNothing',
      hending]
    refine ⟨?_, hanswered⟩
    cases (host' w'.rest.owner.memory (.sent c)).2.ending with
    | none => exact .ok rfl
    | some stop => exact .error stop

/-! ### Reports that cannot be read -/

section Unreadable

variable {out : Outside τ (Client σ)} {out' : Outside τ (Client σ')} {r r' : Report}
  {f f' : Report.Fault}

/-- A link that cannot read a report leaves all as it is, but for a note. -/
theorem Link.handle_unreadable (hr : r.read = .error f) (w : World τ (Client σ)) :
    Link.handle out r w = if f.isForeseen then (.ok false, w.record (.log (.dropped f)))
      else (.error (.failure (.report f)), w) := by
  unfold Link.handle
  rw [hr]
  dsimp only
  split <;> rfl

/-- What is answered from there. -/
theorem Link.handle_unreadable_bind (hr : r.read = .error f) (k : Bool → Reply)
    (w : World τ (Client σ)) : (Link.handle out r >>= fun b => pure (k b)) w =
      (if f.isForeseen then .ok (k false) else .error (.failure (.report f)),
        (Link.handle out r w).2) := by
  rw [Act.bind_apply, Link.handle_unreadable hr]
  cases f.isForeseen <;> rfl

theorem Abreast.handle_unreadable (h : Abreast R (Agreed R M) w w') (hr : r.read = .error f)
    (hr' : r'.read = .error f') :
    Abreast R (Agreed R M) (Link.handle out r w).2 (Link.handle out' r' w').2 := by
  rw [Link.handle_unreadable hr, Link.handle_unreadable hr']
  -- a note is no call
  split <;> split <;>
    exact ⟨h.clock, h.view, h.around.link, h.around.policy, h.around.memory, h.around.calls⟩

/-- Two links that cannot read what they are handed refuse it, both of them, and stay abreast. -/
theorem Abreast.refuse (h : Abreast R (Agreed R M) w w') (hr : r.read = .error f)
    (hr' : r'.read = .error f') (k : Bool → Reply) {op op' : Op τ}
    (hop : op.Refused (if f.isForeseen then .ok (k false) else .error (.failure (.report f))))
    (hop' : op'.Refused
      (if f'.isForeseen then .ok (k false) else .error (.failure (.report f')))) :
    SameAnswer op op' ((Link.handle out r >>= fun b => pure (k b)) w).1
        ((Link.handle out' r' >>= fun b => pure (k b)) w').1 ∧
      Abreast R (Agreed R M) ((Link.handle out r >>= fun b => pure (k b)) w).2
        ((Link.handle out' r' >>= fun b => pure (k b)) w').2 := by
  rw [Link.handle_unreadable_bind hr, Link.handle_unreadable_bind hr']
  exact ⟨.inr ⟨hop, hop'⟩, h.handle_unreadable hr hr'⟩

theorem silently_handle (out : Outside τ (Client σ)) (r : Report) :
    silently (Functor.discard (Link.handle out r)) =
      Link.handle out r >>= fun _ => pure Reply.nothing := by
  show ((Link.handle out r >>= fun _ => pure ()) >>= fun _ => pure Reply.nothing) = _
  rw [Act.bind_assoc]
  rfl

/-- Links that take in a report which cannot be read, from wherever it comes. -/
theorem Link.takeIn_unreadable (h : Abreast R (Agreed R M) w w') (hr : r.read = .error f)
    (hr' : r'.read = .error f') (l : Link) :
    SameAnswer (.publish r) (.publish r') (silently (Link.takeIn out r l) w).1
        (silently (Link.takeIn out' r' l) w').1 ∧
      Abreast R (Agreed R M) (silently (Link.takeIn out r l) w).2
        (silently (Link.takeIn out' r' l) w').2 := by
  have hhandle : ∀ {w w'}, Abreast R (Agreed R M) w w' →
      SameAnswer (.publish r) (.publish r') (silently (Functor.discard (Link.handle out r)) w).1
          (silently (Functor.discard (Link.handle out' r')) w').1 ∧
        Abreast R (Agreed R M) (silently (Functor.discard (Link.handle out r)) w).2
          (silently (Functor.discard (Link.handle out' r')) w').2 := by
    intro w w' h
    rw [silently_handle, silently_handle]
    exact h.refuse hr hr' (fun _ => .nothing) (.publish hr) (.publish hr')
  unfold Link.takeIn
  by_cases hlistening : l.listening
  · rw [if_pos hlistening, if_pos hlistening]
    by_cases hloss : l.overhears.reportAsLoss
    · rw [if_pos hloss, if_pos hloss]
      exact (h.lose courteous_agreed).bind_to
        (P := fun p p' => SameAnswer (.publish r) (.publish r') p.1 p'.1 ∧
          Abreast R (Agreed R M) p.2 p'.2)
        (fun stop _ _ h => ⟨.inl rfl, h⟩) fun _ _ _ h => hhandle h
    · rw [if_neg hloss, if_neg hloss]
      exact hhandle h
  · rw [if_neg hlistening, if_neg hlistening]
    exact ⟨.inl rfl, h⟩

/-- Operations of one kind with reports that cannot be read are refused, both of them, or not heard,
and leave worlds that are abreast. -/
theorem Op.Unreadable.abreast {op op' : Op τ} (hop : op.Unreadable op') (fuel : ℕ)
    (h : Abreast R (Agreed R M) w w') :
    SameAnswer op op' (op.run out fuel w).1 (op'.run out' fuel w').1 ∧
      Abreast R (Agreed R M) (op.run out fuel w).2 (op'.run out' fuel w').2 := by
  have hlink : w.rest.owner.link = w'.rest.owner.link := h.around.link
  cases hop with
  | notify hr hr' =>
    simp only [Op.run, hr, hr']
    exact ⟨.inr ⟨.notify hr, .notify hr'⟩, h⟩
  | handle hr hr' =>
    simp only [Op.run, withLink, Act.bind_apply, Client.link?, ← hlink]
    cases w.rest.owner.link with
    | none => exact ⟨.inl rfl, h⟩
    | some l => exact h.refuse hr hr' Reply.flag (.handle hr) (.handle hr')
  | publish hr hr' =>
    simp only [Op.run, withLink, Act.bind_apply, Client.link?, ← hlink]
    cases w.rest.owner.link with
    | none => exact ⟨.inl rfl, h⟩
    | some l => exact Link.takeIn_unreadable h hr hr' l

end Unreadable

/-- One operation. -/
theorem Op.Agrees.abreast {op op' : Op τ} (hop : op.Agrees op')
    (hbrought : ∀ s, op.brings? = some s → s ∈ brought)
    (hbrought' : ∀ s, op'.brings? = some s → s ∈ brought') (hhost : host.Agree M host') (fuel : ℕ)
    (h : Abreast (Status.Counterparts brought brought')
      (Agreed (Status.Counterparts brought brought') M) w w') :
    SameAnswer op op' (op.run (outside host fuel) fuel w).1
        (op'.run (outside host' fuel) fuel w').1 ∧
      Abreast (Status.Counterparts brought brought')
        (Agreed (Status.Counterparts brought brought') M)
        (op.run (outside host fuel) fuel w).2 (op'.run (outside host' fuel) fuel w').2 := by
  have hR := Status.kindred_counterparts brought brought'
  obtain halike | hunreadable := hop.alike hbrought hbrought'
  · have hstep := h.everyOp hR courteous_agreed (outside_parallels hR hhost fuel)
      (fun c _ _ h => inStep_send hhost fuel c h) fuel halike
    exact ⟨.inl hstep.outcome.eq, hstep.abreast⟩
  · exact hunreadable.abreast fuel h

end TunnelView
