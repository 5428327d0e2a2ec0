import TunnelView.Proofs.Abreast
import TunnelView.Session

/-!
# Two clients abreast

Clients that have the same link and the same policy, beside views that are abreast, stay so: every
operation ends in the same way on both, if it brings reports that stand for related statuses and the
sending of commands goes the same way.

What else is related around the two views is a parameter (`Courteous`).

Key definitions: `Report.Alike`, `Op.Alike`, `Courteous`.
Key theorems: `Abreast.op`, `Abreast.userAction`, `Abreast.everyOp`.
-/

namespace TunnelView

variable {τ σ σ' : Type}

/-! ### User actions and reports -/

section Actions

variable [Zero τ] [Add τ] [Sub τ] [LT τ] [DecidableLT τ] [LE τ] [DecidableLE τ]
  {out : Outside τ (Client σ)} {w : World τ (Client σ)} {fuel : ℕ} {c : Command}

theorem Op.run_command_alone (hl : w.rest.owner.link = none) :
    (Op.command c).run out fuel w = (.ok .nothing, w) := by
  simp only [Op.run, withLink, Act.bind_apply, Client.link?, hl]
  rfl

/-- A user action that is permitted is an assumption, and then the command. -/
theorem Op.run_command {l : Link} (hl : w.rest.owner.link = some l) :
    (Op.command c).run out fuel w =
      if (w.rest.owner.policy.permits c (.bool l.reachable) l.loggedIn
          w.rest.view.status.phase).truth then
        (do View.assume out c.assumption; Link.send out c; return Reply.flag true) w
      else (do note (.refused c w.rest.view.status); return Reply.flag false) w := by
  simp only [Op.run, withLink, Link.command, Act.bind_apply, Client.link?, Act.world, hl]
  by_cases hp : (w.rest.owner.policy.permits c (.bool l.reachable) l.loggedIn
      w.rest.view.status.phase).truth
  · rw [if_pos hp, if_pos hp, Act.bind_apply]
    rcases View.assume out c.assumption w with ⟨_ | _, w₁⟩
    · rfl
    · simp only [Act.bind_apply]
      rcases Link.send out c w₁ with ⟨_ | _, w₂⟩ <;> rfl
  · rw [if_neg hp, if_neg hp]
    rfl

end Actions

/-- The report that an operation brings to the client. -/
def Op.report? : Op τ → Option Report
  | .notify r | .handle r | .publish r => some r
  | _ => none

/-- Two reports that stand for related statuses, or that both cannot be read and are both dropped, or
both not. -/
def Report.Alike (R : Status → Status → Prop) (F : Report.Fault → Report.Fault → Prop)
    (r r' : Report) : Prop :=
  match r.read, r'.read with
  | .ok s, .ok s' => R s s'
  | .error f, .error f' => F f f' ∧ f.isForeseen = f'.isForeseen
  | _, _ => False

/-- The same operation but for the report that it brings. What is wrong with a report that cannot be
read comes back from the view, so it must be the same there. -/
inductive Op.Alike (R : Status → Status → Prop) (F : Report.Fault → Report.Fault → Prop) :
    Op τ → Op τ → Prop
  | notify {r r' : Report} {s s' : Status} (hr : r.read = .ok s) (hr' : r'.read = .ok s')
    (h : R s s') : Alike R F (.notify r) (.notify r')
  | unreadable {r : Report} {f : Report.Fault} (hr : r.read = .error f) :
    Alike R F (.notify r) (.notify r)
  | handle {r r' : Report} (h : r.Alike R F r') : Alike R F (.handle r) (.handle r')
  | publish {r r' : Report} (h : r.Alike R F r') : Alike R F (.publish r) (.publish r')
  | same {op : Op τ} (h : op.report? = none) : Alike R F op op

/-- What is asked of things around two clients: both have the same link and the same policy, and
may change the link and record notes. -/
structure Courteous (R : Status → Status → Prop) (F : Report.Fault → Report.Fault → Prop)
    (Q : Around τ (Client σ) (Client σ')) : Prop where
  note : ∀ {c e c' e'} {n n' : Note τ}, n.Alike R F n' → Q c e c' e' →
    Q c (.log n :: e) c' (.log n' :: e')
  same : ∀ {c e c' e'}, Q c e c' e' → c.link = c'.link
  policy : ∀ {c e c' e'}, Q c e c' e' → c.policy = c'.policy
  link : ∀ {c e c' e'} (f : Link → Link), Q c e c' e' →
    Q { c with link := c.link.map f } e { c' with link := c'.link.map f } e'

/-! ### The link -/

/-- A failure to send a command names the command. -/
theorem InStep.send {Q : Around τ (Client σ) (Client σ')} {w : World τ (Client σ)}
    {w' : World τ (Client σ')} {out : Outside τ (Client σ)} {out' : Outside τ (Client σ')}
    {c : Command} (h : InStep Eq R Q (out.send c w) (out'.send c w')) :
    InStep Eq R Q (Link.send out c w) (Link.send out' c w') := by
  obtain ⟨houtcome, habreast⟩ := h
  have hrun' : out'.send c w' = ((out.send c w).1, (out'.send c w').2) :=
    Prod.ext houtcome.eq.symm rfl
  rw [Link.send, Link.send, hrun']
  rcases hrun : out.send c w with ⟨(f | message | _) | u, w₁⟩
  all_goals rw [hrun] at habreast
  · exact ⟨.error _, habreast⟩
  · exact ⟨.error _, habreast⟩
  · exact ⟨.error _, habreast⟩
  · exact ⟨.ok rfl, habreast⟩

namespace Abreast

section Links

variable {R : Status → Status → Prop} {F : Report.Fault → Report.Fault → Prop}
  {Q : Around τ (Client σ) (Client σ')} {w : World τ (Client σ)} {w' : World τ (Client σ')}
  {out : Outside τ (Client σ)} {out' : Outside τ (Client σ')} (hR : Kindred R)
  (hQ : Courteous R F Q) (hout : out.Parallels R Q out')

include hQ

theorem alter (h : Abreast R Q w w') (f : Link → Link) :
    InStep Eq R Q (Link.change f w) (Link.change f w') :=
  ⟨.ok rfl, h.clock, h.view, hQ.link f h.around⟩

theorem withLink {m : Link → Run τ (Client σ) Reply} {m' : Link → Run τ (Client σ') Reply}
    (h : Abreast R Q w w') (hm : ∀ l, InStep Eq R Q (m l w) (m' l w')) :
    InStep Eq R Q (TunnelView.withLink m w) (TunnelView.withLink m' w') := by
  have hlink : w.rest.owner.link = w'.rest.owner.link := hQ.same h.around
  simp only [TunnelView.withLink, Act.bind_apply, Client.link?, ← hlink]
  cases w.rest.owner.link with
  | none => exact .pure h _
  | some l => exact hm l

omit hQ in
theorem silently {x : Run τ (Client σ) Unit} {x' : Run τ (Client σ') Unit}
    (h : InStep Eq R Q (x w) (x' w')) :
    InStep Eq R Q (TunnelView.silently x w) (TunnelView.silently x' w') :=
  h.next fun _ _ _ h => .pure h _

variable [Zero τ] [Add τ] [LT τ] [DecidableLT τ] [LE τ] [DecidableLE τ]

theorem lose (h : Abreast R Q w w') : InStep Eq R Q (Link.lose w) (Link.lose w') :=
  (h.note hQ.note .serviceLost).next fun _ _ _ h =>
    (h.alter hQ _).next fun _ _ _ h => h.resetFallback

theorem tellLink (h : Abreast R Q w w') :
    InStep Eq R Q (TunnelView.tellLink w) (TunnelView.tellLink w') := by
  have hlink : w.rest.owner.link = w'.rest.owner.link := hQ.same h.around
  simp only [TunnelView.tellLink, Act.bind_apply, Client.link?, ← hlink]
  cases w.rest.owner.link with
  | none => exact .pure h ()
  | some l =>
    simp only [Link.overhear]
    cases l.listening with
    | false => exact .pure h ()
    | true =>
      cases l.overhears.statusAsLoss <;> cases l.overhears.statusAsReport
      · exact .pure h ()
      · exact .stop h _
      · exact (h.lose hQ).next fun _ _ _ h => .pure h ()
      · exact (h.lose hQ).next fun _ _ _ h => .stop h _

include hR hout

variable [Sub τ]

theorem handle (h : Abreast R Q w w') {r r' : Report} (hr : r.Alike R F r') :
    InStep Eq R Q (Link.handle out r w) (Link.handle out' r' w') := by
  unfold Report.Alike at hr
  unfold Link.handle
  generalize r.read = e at hr
  generalize r'.read = e' at hr
  rcases e with fault | s <;> rcases e' with fault' | s'
  · obtain ⟨hfault, hforeseen⟩ := hr
    dsimp only
    rw [← hforeseen]
    cases hf : fault.isForeseen with
    | true => exact (h.note hQ.note (.dropped hfault)).next fun _ _ _ h => .pure h _
    | false =>
      obtain rfl := Report.Fault.isForeseen_eq_false.mp hf
      obtain rfl := Report.Fault.isForeseen_eq_false.mp (hforeseen.symm.trans hf)
      exact .stop h _
  · exact hr.elim
  · exact hr.elim
  · refine (h.alter hQ _).next fun _ _ _ h => ?_
    exact (h.receive hR hQ.note hout hr).next fun _ _ _ h => .pure h _

theorem takeIn (h : Abreast R Q w w') {r r' : Report} (hr : r.Alike R F r') (l : Link) :
    InStep Eq R Q (l.takeIn out r w) (l.takeIn out' r' w') := by
  have hhandle : ∀ {w w'}, Abreast R Q w w' →
      InStep Eq R Q (Functor.discard (Link.handle out r) w)
        (Functor.discard (Link.handle out' r') w') :=
    fun h => (h.handle hR hQ hout hr).next fun _ _ _ h => .pure h _
  unfold Link.takeIn
  by_cases hl : l.listening
  · rw [if_pos hl, if_pos hl]
    by_cases hloss : l.overhears.reportAsLoss
    · rw [if_pos hloss, if_pos hloss]
      exact (h.lose hQ).next fun _ _ _ h => hhandle h
    · rw [if_neg hloss, if_neg hloss]
      exact hhandle h
  · rw [if_neg hl, if_neg hl]
    exact .pure h _

/-- An operation that brings no report ends in the same way abreast, user actions apart. -/
theorem sameOp (h : Abreast R Q w w') (fuel : ℕ) {op : Op τ} (hreport : op.report? = none)
    (hcommand : ∀ c, op ≠ .command c) : InStep Eq R Q (op.run out fuel w) (op.run out' fuel w') := by
  cases op with
  | notify r => contradiction
  | expect kind =>
    refine silently ?_
    unfold View.expect
    cases Assumption.ofValue? kind with
    | none => exact .stop h _
    | some a => exact h.assume hR hQ.note hout a
  | reset => exact silently h.resetFallback
  | close => exact silently ((h.alter hQ _).next fun _ _ _ h => h.close)
  | closeView => exact silently h.close
  | advance delta => exact silently (h.advance hR hQ.note hout fuel delta)
  | advanceTo time => exact silently (h.advanceTo hR hQ.note hout fuel time)
  | advanceNowhere kind? => exact silently (h.advanceNowhere hR hQ.note hout fuel kind?)
  | idle most => exact silently (h.drainAll hR hQ.note hout most _)
  | ask reachable loggedIn =>
    have hpolicy : w.rest.owner.policy = w'.rest.owner.policy := hQ.policy h.around
    simp only [Op.run, Act.bind_apply, Act.world, hR.phase h.view.status, hpolicy]
    exact .pure h _
  | command c => exact absurd rfl (hcommand c)
  | handle r => contradiction
  | publish r => contradiction
  | lose => exact h.withLink hQ fun _ => silently (h.lose hQ)
  | publishLoss =>
    refine h.withLink hQ fun l => ?_
    by_cases hl : l.listening
    · simp only [hl, if_true]
      exact (h.lose hQ).next fun _ _ _ h => .pure h _
    · simp only [hl]
      exact .pure h _
  | logIn flag => exact h.withLink hQ fun _ => silently (h.alter hQ _)
  | stop s => exact .stop h s

/-- **Operations end in the same way abreast**, user actions apart. -/
theorem op (h : Abreast R Q w w') (fuel : ℕ) {op op' : Op τ} (hop : op.Alike R F op')
    (hcommand : ∀ c, op ≠ .command c) :
    InStep Eq R Q (op.run out fuel w) (op'.run out' fuel w') := by
  cases hop with
  | notify hr hr' hs =>
    simp only [Op.run, hr, hr']
    exact silently (h.receive hR hQ.note hout hs)
  | unreadable hr =>
    simp only [Op.run, hr]
    exact .stop h _
  | handle hr =>
    exact h.withLink hQ fun _ => (h.handle hR hQ hout hr).next fun _ _ _ h => .pure h _
  | publish hr => exact h.withLink hQ fun l => silently (h.takeIn hR hQ hout hr l)
  | same hreport => exact h.sameOp hR hQ hout fuel hreport hcommand

/-- A user action goes the same way up to the command that it sends, if it sends one. -/
theorem userAction {P : Except (Stop τ) Reply × World τ (Client σ) →
      Except (Stop τ) Reply × World τ (Client σ') → Prop}
    (hsame : ∀ {r r'}, InStep Eq R Q r r' → r.1 ≠ .ok (.flag true) → P r r') {c : Command}
    (hsend : ∀ {w w'}, Abreast R Q w w' → P ((do Link.send out c; return Reply.flag true) w)
      ((do Link.send out' c; return Reply.flag true) w'))
    (h : Abreast R Q w w') (fuel : ℕ) :
    P ((Op.command c).run out fuel w) ((Op.command c).run out' fuel w') := by
  have hlink : w.rest.owner.link = w'.rest.owner.link := hQ.same h.around
  cases hl : w.rest.owner.link with
  | none =>
    rw [Op.run_command_alone hl, Op.run_command_alone (hlink ▸ hl)]
    exact hsame ⟨.ok rfl, h⟩ nofun
  | some l =>
    have hpolicy : w.rest.owner.policy = w'.rest.owner.policy := hQ.policy h.around
    rw [Op.run_command hl, Op.run_command (hlink ▸ hl), ← hpolicy, ← hR.phase h.view.status]
    split
    · exact (h.assume hR hQ.note hout c.assumption).bind_to
        (fun stop _ _ h => hsame ⟨.error stop, h⟩ nofun) fun _ _ _ h => hsend h
    · exact hsame ((h.note hQ.note (.refused c h.view.status)).next fun _ _ _ h => .pure h _) nofun

/-- Every operation ends in the same way abreast if the sending of commands does. -/
theorem everyOp (hsend : ∀ c {w w'}, Abreast R Q w w' →
      InStep Eq R Q (out.send c w) (out'.send c w'))
    (h : Abreast R Q w w') (fuel : ℕ) {op op' : Op τ} (hop : op.Alike R F op') :
    InStep Eq R Q (op.run out fuel w) (op'.run out' fuel w') := by
  by_cases hcommand : ∃ c, op = .command c
  · obtain ⟨c, rfl⟩ := hcommand
    cases hop
    refine h.userAction hR hQ hout (fun h _ => h) (fun h => ?_) fuel
    exact (hsend c h).send.next fun _ _ _ h => .pure h _
  · exact h.op hR hQ hout fuel hop fun c hc => hcommand ⟨c, hc⟩

end Links

end Abreast
end TunnelView
