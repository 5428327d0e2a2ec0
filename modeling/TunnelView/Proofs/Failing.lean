import TunnelView.Proofs.Twins
import TunnelView.Proofs.Steps

/-!
# Failures of a host leave no trace in a client

A host may fail when it is shown a status, and when it is sent a command. The first is held back by
the view, the second comes back to whoever asked for the command. Either way the client is the same
as it would be had the host not failed: the two sessions are in the same world after every step,
clock, view, link and all, and the host is called with the same at the same times. They differ in
the notes of the failures that were held back, and in the answer to a user action whose command
failed.

Which calls fail is a choice, for each call by its number: any of them may.

Key definitions: `Host.failing`, `Host.calm`, `Event.isFailure`, `Op.answer`, `Answers`.
Key theorems: `resembles_calm`, `Answers.op`, `Session.step_failing`,
`Session.failures_leave_no_trace`.
-/

namespace TunnelView

variable {τ : Type}

/-- A host that calls nothing. It counts its calls, and `choice` says on which of them it fails. -/
def Host.failing (choice : ℕ → Call → Option (Failure τ)) : Host τ ℕ := fun calls call =>
  (calls + 1, { ending := (choice calls call).map .failure })

/-- A host that calls nothing and never fails. -/
def Host.calm : Host τ ℕ := Host.failing fun _ _ => none

/-- Whether an event is a note of a failure that was held back. -/
def Event.isFailure : Event τ → Bool
  | .log (.failed _ _) => true
  | _ => false

/-- The events but for the failures that were held back. -/
def Event.told (events : List (Event τ)) : List (Event τ) := events.filter (!·.isFailure)

/-- The answer to an operation during which the host was called for the last time as the call of
this number. -/
def Op.answer (choice : ℕ → Call → Option (Failure τ)) (call : ℕ) :
    Op τ → Except (Stop τ) Reply → Except (Stop τ) Reply
  | .command c, .ok (.flag true) =>
    match choice call (.sent c) with
    | some f => .error (.failure (.command c f))
    | none => .ok (.flag true)
  | _, answer => answer

theorem Op.answer_of_unsent {choice : ℕ → Call → Option (Failure τ)} {call : ℕ} {op : Op τ}
    {answer : Except (Stop τ) Reply} (h : answer ≠ .ok (.flag true)) :
    op.answer choice call answer = answer := by
  unfold Op.answer
  split
  · exact absurd rfl h
  · rfl

theorem Op.answer_of_other {choice : ℕ → Call → Option (Failure τ)} {call : ℕ} {op : Op τ}
    {answer : Except (Stop τ) Reply} (h : ∀ c, op ≠ .command c) :
    op.answer choice call answer = answer := by
  unfold Op.answer
  split
  · exact absurd rfl (h _)
  · rfl

/-- The same client, and the same events but for the failures that were held back. -/
def Spared : Around τ (Client ℕ) (Client ℕ) :=
  fun c e c' e' => c = c' ∧ Event.told e = Event.told e'

/-- Two ends of an operation, with failures and without, that are side by side: the answers are the
same unless the last call was a command that failed. -/
structure Answers (choice : ℕ → Call → Option (Failure τ)) (op : Op τ)
    (r r' : Except (Stop τ) Reply × World τ (Client ℕ)) : Prop where
  outcome : r.1 = op.answer choice (r'.2.rest.owner.memory - 1) r'.1
  beside : Beside Spared r.2 r'.2

theorem Event.told_cons_congr (e : Event τ) {events events' : List (Event τ)}
    (h : Event.told events = Event.told events') :
    Event.told (e :: events) = Event.told (e :: events') := by
  simp only [Event.told, List.filter_cons] at h ⊢
  rw [h]

theorem sociable_spared : Sociable (Spared (τ := τ)) where
  note n h := ⟨h.1, Event.told_cons_congr _ h.2⟩
  same h := congrArg Client.link h.1
  policy h := congrArg Client.policy h.1
  link f h := ⟨by rw [h.1], h.2⟩

section Calls

variable {w w' : World τ (Client ℕ)} (choice : ℕ → Call → Option (Failure τ))

/-- What a call leaves behind, whether or not it fails. -/
def World.called (call : Call) (w : World τ (Client ℕ)) : World τ (Client ℕ) :=
  { w with
    rest.owner.memory := w.rest.owner.memory + 1
    rest.events := call.event w.clock.now :: w.rest.events }

theorem respond_failing (run : Op τ → Run τ (Client ℕ) Reply) (call : Call)
    (w : World τ (Client ℕ)) : respond (Host.failing choice) run call w =
      (match choice w.rest.owner.memory call with
        | some f => .error (.failure f)
        | none => .ok (), w.called call) := by
  simp only [respond, Act.bind_apply, Act.change, Act.world, World.record, Host.failing, runOps,
    Act.pure_apply]
  cases choice w.rest.owner.memory call <;> rfl

theorem Beside.called (h : Beside Spared w w') (call : Call) :
    Beside Spared (w.called call) (w'.called call) := by
  obtain ⟨hclock, hview, howner, htold⟩ := h
  refine ⟨hclock, hview, ?_, ?_⟩
  · simp only [World.called, howner]
  · simp only [World.called, hclock]
    exact Event.told_cons_congr _ htold

theorem Beside.noted_failure (h : Beside Spared w w') (message : String) (f : Failure τ) :
    Beside Spared (w.record (.log (.failed message f))) w' :=
  ⟨h.clock, h.view, h.around⟩

end Calls

variable [Zero τ] [Add τ] [Sub τ] [LT τ] [DecidableLT τ] [LE τ] [DecidableLE τ]
  {w w' : World τ (Client ℕ)} (choice : ℕ → Call → Option (Failure τ))

/-- Behind the guard around it a host that fails looks like one that does not. -/
theorem resembles_calm (n : ℕ) :
    (outside (Host.failing choice) n).Resembles Spared (outside Host.calm n) := by
  intro s w w' h
  cases n with
  | zero => exact (Twins.stop h _).guarded sociable_spared.note _
  | succ n =>
    let settled (r : Except (Stop τ) Unit × World τ (Client ℕ)) :=
      guarded (View.showing.settle ()) (fun _ => r) w
    refine (h.tellLink sociable_spared).bind_to
      (P := fun r r' => Twins Spared (settled r) (settled r'))
      (fun stop w₁ w₁' h => ?_) fun _ w₁ w₁' h => ?_
    · exact Twins.guarded (m := fun _ => (.error stop, w₁)) (k := fun _ => (.error stop, w₁'))
        sociable_spared.note _ ⟨rfl, h⟩
    · have hcalled := h.called (.shown s)
      show Twins Spared (settled (respond (Host.failing choice) _ (.shown s) w₁))
        (settled (respond (Host.failing fun _ _ => none) _ (.shown s) w₁'))
      rw [respond_failing, respond_failing]
      cases choice w₁.rest.owner.memory (.shown s) with
      | none => exact ⟨rfl, hcalled⟩
      | some f => exact ⟨rfl, hcalled.noted_failure _ f⟩

/-- The sending of a command ends as `choice` says, and in the same world. -/
theorem Answers.sending (n : ℕ) (c : Command) (h : Beside Spared w w') :
    Answers choice (.command c)
      ((do Link.send (outside (Host.failing choice) n) c; return Reply.flag true) w)
      ((do Link.send (outside Host.calm n) c; return Reply.flag true) w') := by
  cases n with
  | zero => exact ⟨rfl, h⟩
  | succ n =>
    have hcalled := h.called (.sent c)
    have hmemory : w.rest.owner.memory = w'.rest.owner.memory := congrArg Client.memory h.around.1
    have hsent : (outside (Host.failing choice) (n + 1)).send c w =
        (match choice w.rest.owner.memory (.sent c) with
          | some f => .error (.failure f)
          | none => .ok (), w.called (.sent c)) := respond_failing choice _ _ w
    have hsent' : (outside Host.calm (n + 1)).send c w' = (.ok (), w'.called (.sent c)) :=
      respond_failing (fun _ _ => none) _ _ w'
    have hlast : (w'.called (.sent c)).rest.owner.memory - 1 = w.rest.owner.memory := by
      rw [hmemory]
      rfl
    simp only [Act.bind_apply, Link.send, hsent, hsent', Act.pure_apply]
    cases hchoice : choice w.rest.owner.memory (.sent c) with
    | none => exact ⟨by simp only [Op.answer, hlast, hchoice], hcalled⟩
    | some f => exact ⟨by simp only [Op.answer, hlast, hchoice], hcalled⟩

/-- An operation ends side by side with and without failures. -/
theorem Answers.op (fuel : ℕ) (op : Op τ) (h : Beside Spared w w') :
    Answers choice op (op.run (outside (Host.failing choice) fuel) fuel w)
      (op.run (outside Host.calm fuel) fuel w') := by
  have hout := resembles_calm choice fuel
  by_cases hop : ∃ c, op = .command c
  · obtain ⟨c, rfl⟩ := hop
    refine h.userAction sociable_spared hout (P := Answers choice (.command c))
      (fun htwins hunsent => ⟨?_, htwins.beside⟩) (Answers.sending choice fuel c) fuel
    rw [htwins.outcome] at hunsent ⊢
    exact (Op.answer_of_unsent hunsent).symm
  · have hother : ∀ c, op ≠ .command c := fun c hc => hop ⟨c, hc⟩
    have htwins := h.op sociable_spared hout fuel hother
    exact ⟨htwins.outcome.trans (Op.answer_of_other hother).symm, htwins.beside⟩

/-- **A step of a session in which calls fail** ends in the same world as the same step without
failures, with the same events but for the failures that were held back, and the same answer unless
a command could not be sent. -/
theorem Session.step_failing (fuel : ℕ) (op : Op τ) (w : World τ (Client ℕ)) :
    let r := Session.step (Host.failing choice) fuel op w
    let r' := Session.step Host.calm fuel op w
    r.1 = op.answer choice (r'.2.2.rest.owner.memory - 1) r'.1 ∧
      Event.told r.2.1 = Event.told r'.2.1 ∧ r.2.2 = r'.2.2 := by
  intro r r'
  let x := op.run (outside (Host.failing choice) fuel) fuel w
  let x' := op.run (outside Host.calm fuel) fuel w
  obtain ⟨hanswer, hclock, hview, howner, htold⟩ : Answers choice op x x' :=
    .op choice fuel op ⟨rfl, rfl, rfl, rfl⟩
  refine ⟨hanswer, ?_, ?_⟩
  · show Event.told x.2.rest.events.reverse = Event.told x'.2.rest.events.reverse
    rw [Event.told, Event.told, List.filter_reverse, List.filter_reverse]
    exact congrArg List.reverse htold
  · show (⟨x.2.clock, x.2.rest.view, x.2.rest.owner, []⟩ : World τ (Client ℕ)) =
      ⟨x'.2.clock, x'.2.rest.view, x'.2.rest.owner, []⟩
    rw [hclock, hview, howner]

theorem Session.run_failing (fuel : ℕ) (ops : List (Op τ)) (w : World τ (Client ℕ)) :
    Session.run (Host.failing choice) fuel ops w = Session.run Host.calm fuel ops w := by
  induction ops generalizing w with
  | nil => rw [Session.run_nil, Session.run_nil]
  | cons op ops ih =>
    obtain ⟨-, -, hworld⟩ := Session.step_failing choice fuel op w
    rw [Session.run_cons, Session.run_cons, hworld, ih]

/-- **Failures of a host leave no trace.** After any operations, whichever of the calls of the host
fail: the next operation leads to the same world as without failures. The host is called with the
same at the same times, and the answer is the same but for a user action whose command could not be
sent, which says which command it was. -/
theorem Session.failures_leave_no_trace (fuel : ℕ) (ops : List (Op τ)) (op : Op τ)
    (w : World τ (Client ℕ)) :
    let r := Session.step (Host.failing choice) fuel op
      (Session.run (Host.failing choice) fuel ops w)
    let r' := Session.step Host.calm fuel op (Session.run Host.calm fuel ops w)
    r.2.2 = r'.2.2 ∧ Event.told r.2.1 = Event.told r'.2.1 ∧
      r.1 = op.answer choice (r'.2.2.rest.owner.memory - 1) r'.1 := by
  rw [Session.run_failing]
  obtain ⟨hanswer, htold, hworld⟩ :=
    Session.step_failing choice fuel op (Session.run Host.calm fuel ops w)
  exact ⟨hworld, htold, hanswer⟩

end TunnelView
