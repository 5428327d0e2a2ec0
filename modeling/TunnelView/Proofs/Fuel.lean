import TunnelView.Proofs.Parts
import TunnelView.Proofs.Reentry

/-!
# More fuel changes no run that comes to its end

A run that has less fuel is the same as one that has more, as far as it gets: either it runs out, or
it ends in the same way and in the same world. This goes through a run part by part
(`OpParts`). Depth counts as fuel, so hosts are called inside operations just the same.

Beside that it is followed which stops a run can end with: a host that is shown statuses may fail,
and what else it may stop with is `breaks`. Behind the guard failures are gone, and only these stops
are left to end what a view does.

Key definitions: `Act.Within`, `Outside.Within`, `Host.Breaks`.
Key theorems: `Act.Within.bind`, `Act.Within.fire`, `Act.Within.advanceTo`, `Outside.Within.op`,
`outside_within`.
-/

namespace TunnelView

variable {W τ ο σ α β : Type}

/-- Whether a run, unless it runs out of fuel, is the same as another one and ends with a stop only
if that is one of `stops`. -/
def Act.Within (stops : Stop τ → Prop) (x y : Act W τ α) : Prop :=
  ∀ w, (x w).1 = .error .exhausted ∨ x w = y w ∧ ∀ s, (x w).1 = .error s → stops s

namespace Act.Within

variable {stops stops' : Stop τ → Prop} {x y : Act W τ α}

theorem mono (h : Within stops x y) (hs : ∀ s, stops s → stops' s) : Within stops' x y :=
  fun w => (h w).imp_right fun ⟨heq, hstop⟩ => ⟨heq, fun s hr => hs s (hstop s hr)⟩

theorem refl (h : ∀ w s, (x w).1 = .error s → stops s) : Within stops x x :=
  fun w => .inr ⟨rfl, h w⟩

/-- What always comes to an end with a value. -/
theorem of_ok (h : ∀ w, ∃ a, (x w).1 = .ok a) : Within stops x x := by
  refine refl fun w s hr => ?_
  obtain ⟨a, ha⟩ := h w
  rw [ha] at hr
  cases hr

theorem pure (a : α) : Within stops (Pure.pure a : Act W τ α) (Pure.pure a) :=
  of_ok fun _ => ⟨a, rfl⟩

theorem stop {s : Stop τ} (h : stops s) : Within stops (.stop s : Act W τ α) (.stop s) :=
  refl fun _ _ hr => by cases hr; exact h

theorem exhausted (y : Act W τ α) : Within stops (.stop .exhausted) y := fun _ => .inl rfl

theorem bind {k l : α → Act W τ β} (h : Within stops x y) (hk : ∀ a, Within stops (k a) (l a)) :
    Within stops (x >>= k) (y >>= l) := by
  intro w
  rw [Act.bind_apply, Act.bind_apply]
  rcases h w with hx | ⟨heq, hstop⟩
  · left
    rcases hr : x w with ⟨stop | a, w₁⟩
    · rw [hr] at hx
      exact congrArg Except.error (Except.error.inj hx)
    · rw [hr] at hx
      cases hx
  · rw [← heq]
    rcases hr : x w with ⟨stop | a, w₁⟩
    · rw [hr] at hstop
      exact .inr ⟨rfl, fun s hs => hstop s (congrArg Except.error (Except.error.inj hs))⟩
    · exact hk a w₁

/-- What is made of the outcome of a run, where running out of fuel stays what it is. -/
theorem map {g : Except (Stop τ) α × W → Except (Stop τ) β × W} (h : Within stops x y)
    (hexhausted : ∀ w, (g (.error .exhausted, w)).1 = .error .exhausted)
    (hstops : ∀ r w s, (∀ s, r = .error s → stops s) → (g (r, w)).1 = .error s → stops' s) :
    Within stops' (fun w => g (x w)) fun w => g (y w) := by
  intro w
  rcases h w with hx | ⟨heq, hstop⟩
  · left
    have hrun : x w = (.error .exhausted, (x w).2) := Prod.ext hx rfl
    dsimp only
    rw [hrun]
    exact hexhausted _
  · right
    dsimp only
    rw [← heq]
    exact ⟨rfl, fun s hs => hstops _ _ s hstop hs⟩

/-- A run that ends is the same with more fuel. -/
theorem eq {w : W} (h : Within stops x y) (hr : (x w).1 ≠ .error .exhausted) : x w = y w :=
  ((h w).resolve_left hr).1

theorem world {k l : W → Act W τ α} (h : ∀ w, Within stops (k w) (l w)) :
    Within stops (Act.world >>= k) (Act.world >>= l) :=
  bind (of_ok fun w => ⟨w, rfl⟩) h

theorem discard (h : Within stops x y) : Within stops (Functor.discard x) (Functor.discard y) :=
  bind h fun _ => pure ()

end Act.Within

/-- Code outside that is the same as another, as far as it gets. -/
structure Outside.Within (stops : Stop τ → Prop) (out out' : Outside τ ο) : Prop where
  present : ∀ s, Act.Within stops (out.present s) (out'.present s)
  send : ∀ c, Act.Within stops (out.send c) (out'.send c)

/-- The stops of an operation: its own failures, and those of `breaks`. -/
def Stop.OrFails (breaks : Stop τ → Prop) (s : Stop τ) : Prop := s.isFailure ∨ breaks s

theorem Outside.Within.mono {stops stops' : Stop τ → Prop} {out out' : Outside τ ο}
    (h : out.Within stops out') (hs : ∀ s, stops s → stops' s) : out.Within stops' out' :=
  ⟨fun s => (h.present s).mono hs, fun c => (h.send c).mono hs⟩

/-! ### What a view does -/

section Views

variable {breaks : Stop τ → Prop} {out out' : Outside τ ο}

namespace Act.Within

/-- Behind the guard there are no failures any more. -/
theorem showing {x y : Run τ ο Unit} (h : Within (Stop.OrFails breaks) x y) :
    Within breaks (guarded (View.showing.settle ()) x) (guarded (View.showing.settle ()) y) := by
  refine map (g := fun r => guarded (View.showing.settle ()) (fun _ => r) r.2) h (fun _ => rfl)
    fun r w s hstop hs => ?_
  rcases r with (f | message | _) | u
  all_goals cases hs
  · exact (hstop _ rfl).resolve_left Bool.false_ne_true
  · exact (hstop _ rfl).resolve_left Bool.false_ne_true

theorem compositional {stops : Stop τ → Prop} :
    Compositional (fun _ => Within stops : ∀ ⦃α : Type⦄, Run τ ο α → Run τ ο α → Prop) where
  still hx := of_ok fun w => (hx w).imp fun _ ha => congrArg Prod.fst ha
  bind := bind

variable [Zero τ] [Add τ] [LT τ] [DecidableLT τ] [LE τ] [DecidableLE τ]

theorem viewParts (hout : ∀ s, Within (Stop.OrFails breaks) (out.present s) (out'.present s)) :
    ViewParts (fun _ => Within breaks) out out' where
  toCompositional := compositional
  note _ := of_ok fun _ => ⟨(), rfl⟩
  change _ := of_ok fun _ => ⟨(), rfl⟩
  cancelTimeout := of_ok fun _ => ⟨(), rfl⟩
  startTimeout _ _ := of_ok fun _ => ⟨(), rfl⟩
  putOff _ _ := of_ok fun _ => ⟨(), rfl⟩
  commit s := bind (of_ok fun w => ⟨w.rest.view, rfl⟩) fun _ =>
    bind (of_ok fun _ => ⟨(), rfl⟩) fun _ => bind (of_ok fun _ => ⟨(), rfl⟩) fun _ =>
      showing (hout s)

theorem fire [Sub τ]
    (hout : ∀ s, Within (Stop.OrFails breaks) (out.present s) (out'.present s))
    (t : Timer τ Alarm) : Within breaks (View.fire out t) (View.fire out' t) :=
  (viewParts hout).fire t

end Act.Within
end Views

/-! ### Moving time -/

section Time

variable {C κ : Type} [Timekeeper C τ κ] {stops breaks : Stop τ → Prop}
  {fire fire' : Timed.Fire C ω τ κ} {n m : ℕ} {ω : Type}

namespace Act.Within

theorem popDue (limit : Option τ) :
    Within stops (Timed.popDue limit : Act (Timed C ω) τ _) (Timed.popDue limit) :=
  of_ok fun _ => ⟨_, rfl⟩

theorem onClock (f : C → C) :
    Within stops (Timed.onClock f : Act (Timed C ω) τ Unit) (Timed.onClock f) :=
  of_ok fun _ => ⟨(), rfl⟩

theorem now : Within stops (Timed.now : Act (Timed C ω) τ τ) Timed.now := of_ok fun _ => ⟨_, rfl⟩

/-- Firing all that falls due, by induction on the fuel of the shorter run. -/
theorem drain (hfire : ∀ t, Within stops (fire t) (fire' t)) (hnm : n ≤ m) (limit : Option τ) :
    Within stops (Timed.drain fire limit n) (Timed.drain fire' limit m) := by
  induction n generalizing m with
  | zero => exact exhausted _
  | succ n ih =>
    obtain ⟨m, rfl⟩ : ∃ k, m = k + 1 := ⟨m - 1, by omega⟩
    refine (popDue limit).bind fun t? => ?_
    cases t? with
    | none => exact pure ()
    | some t => exact (hfire t).bind fun _ => ih (Nat.le_of_succ_le_succ hnm)

theorem advanceTo (hfire : ∀ t, Within stops (fire t) (fire' t)) (hnm : n ≤ m) (time : τ) :
    Within stops (Timed.advanceTo fire n time) (Timed.advanceTo fire' m time) :=
  (drain hfire hnm _).bind fun _ => onClock _

theorem fail {W : Type} (f : Failure τ) :
    Within (Stop.OrFails breaks) (Act.fail f : Act W τ α) (.fail f) :=
  stop (.inl rfl)

/-- The firings of a run until idle are limited by what was asked for, and not by fuel. -/
theorem drainAll (hfire : ∀ t, Within (Stop.OrFails breaks) (fire t) (fire' t)) (most : ℤ) (n : ℕ) :
    Within (Stop.OrFails breaks) (Timed.drainAll fire most n) (Timed.drainAll fire' most n) := by
  induction n with
  | zero => exact fail _
  | succ n ih =>
    refine (popDue none).bind fun t? => ?_
    cases t? with
    | none => exact pure ()
    | some t => exact (hfire t).bind fun _ => ih

theorem advanceNowhere (hfire : ∀ t, Within (Stop.OrFails breaks) (fire t) (fire' t)) (hnm : n ≤ m)
    (kind? : Option String) : Within (Stop.OrFails breaks) (Timed.advanceNowhere fire n kind?)
      (Timed.advanceNowhere fire' m kind?) := by
  refine world fun w => ?_
  cases kind? with
  | none => exact (drain hfire hnm none).bind fun _ => now.bind fun _ => fail _
  | some kind =>
    cases Timekeeper.first? w.clock with
    | none => exact now.bind fun _ => fail _
    | some t => exact fail _

end Act.Within
end Time

/-! ### Operations -/

section Operations

variable {breaks : Stop τ → Prop} {out out' : Outside τ (Client σ)} {n m : ℕ}

/-- Whether an operation is none that stops by itself, unless with a failure or one of `breaks`. -/
def Op.Breaks (breaks : Stop τ → Prop) (op : Op τ) : Prop :=
  ∀ s, op = .stop s → Stop.OrFails breaks s

/-- A host that stops with nothing but failures and `breaks`, by itself and in its operations. -/
structure Host.Breaks (breaks : Stop τ → Prop) (host : Host τ σ) : Prop where
  ending : ∀ memory call s, (host memory call).2.ending = some s → Stop.OrFails breaks s
  ops : ∀ memory call, ∀ op ∈ (host memory call).2.ops, op.Breaks breaks

namespace Act.Within

/-- A failure to send a command names the command, and is still one. -/
theorem send {c : Command} (h : Within (Stop.OrFails breaks) (out.send c) (out'.send c)) :
    Within (Stop.OrFails breaks) (Link.send out c) (Link.send out' c) := by
  refine map (g := fun r => Link.send { out with send := fun _ _ => r } c r.2) h (fun _ => rfl)
    fun r w s hstop hs => ?_
  rcases r with (f | message | _) | u
  all_goals cases hs
  · exact .inl rfl
  · exact hstop _ rfl
  · exact hstop _ rfl

theorem runOps {run run' : Op τ → Run τ (Client σ) Reply} {stops : Stop τ → Prop} {ops : List (Op τ)}
    (h : ∀ op ∈ ops, Within stops (run op) (run' op)) :
    Within stops (TunnelView.runOps run ops) (TunnelView.runOps run' ops) := by
  induction ops with
  | nil => exact pure ()
  | cons op ops ih =>
    refine (h op List.mem_cons_self).discard.bind fun _ => ?_
    exact ih fun op hop => h op (List.mem_cons_of_mem _ hop)

theorem respond {run run' : Op τ → Run τ (Client σ) Reply} {host : Host τ σ}
    (hhost : host.Breaks breaks)
    (h : ∀ op : Op τ, op.Breaks breaks → Within (Stop.OrFails breaks) (run op) (run' op))
    (call : Call) : Within (Stop.OrFails breaks) (TunnelView.respond host run call)
      (TunnelView.respond host run' call) := by
  refine Within.bind (of_ok fun _ => ⟨(), rfl⟩) fun _ => world fun w => ?_
  refine Within.bind (of_ok fun _ => ⟨(), rfl⟩) fun _ => ?_
  refine (runOps fun op hop => h op (hhost.ops _ _ op hop)).bind fun _ => ?_
  split
  · exact pure ()
  · exact stop (hhost.ending _ _ _ ‹_›)

variable [Zero τ] [Add τ] [LT τ] [DecidableLT τ] [LE τ] [DecidableLE τ]

theorem close : Within breaks (View.close : Run τ (Client σ) Unit) View.close := by
  refine bind (of_ok fun w => ⟨w.rest.view, rfl⟩) fun v => ?_
  split
  · exact pure ()
  · exact of_ok fun _ => ⟨(), rfl⟩

theorem tellLink : Within (Stop.OrFails breaks) (TunnelView.tellLink : Run τ (Client σ) Unit)
    TunnelView.tellLink := by
  refine bind (of_ok fun w => ⟨w.rest.owner.link, rfl⟩) fun l? => ?_
  cases l? with
  | none => exact pure _
  | some l => exact compositional.overhear fail (of_ok fun _ => ⟨(), rfl⟩) l

end Act.Within

variable [Zero τ] [Add τ] [LT τ] [DecidableLT τ] [LE τ] [DecidableLE τ] [Sub τ]

namespace Outside.Within

open Act.Within

theorem opParts (h : out.Within (Stop.OrFails breaks) out') (hnm : n ≤ m) :
    OpParts (fun _ => Act.Within (Stop.OrFails breaks)) out out' n m :=
  have hfire : ∀ t, Act.Within (Stop.OrFails breaks) (View.fire out t) (View.fire out' t) :=
    fun t => (fire h.present t).mono fun _ => .inr
  { toCompositional := compositional
    fail := Act.Within.fail
    note := fun _ => of_ok fun _ => ⟨(), rfl⟩
    link := fun _ => of_ok fun _ => ⟨(), rfl⟩
    reset := of_ok fun _ => ⟨(), rfl⟩
    close := Act.Within.close
    receive := fun s => ((viewParts h.present).receive s).mono fun _ => .inr
    assume := fun a => ((viewParts h.present).assume a).mono fun _ => .inr
    advanceTo := Act.Within.advanceTo hfire hnm
    advanceNowhere := Act.Within.advanceNowhere hfire hnm
    idle := fun most => Act.Within.drainAll hfire most _ }

/-- **An operation that ends is the same with more fuel and depth.** -/
theorem op (h : out.Within (Stop.OrFails breaks) out') (hnm : n ≤ m) {op : Op τ}
    (hop : op.Breaks breaks) : Act.Within (Stop.OrFails breaks) (op.run out n) (op.run out' m) :=
  (h.opParts hnm).op (fun c _ => Act.Within.send (h.send c)) fun s hs => Act.Within.stop (hop s hs)

end Outside.Within

/-- A host that is called down to some depth is the same down to any greater one. -/
theorem outside_within {host : Host τ σ} (hhost : host.Breaks breaks) (hnm : n ≤ m) :
    (outside host n).Within (Stop.OrFails breaks) (outside host m) := by
  induction n generalizing m with
  | zero => exact ⟨fun _ => .exhausted _, fun _ => .exhausted _⟩
  | succ n ih =>
    obtain ⟨m, rfl⟩ : ∃ k, m = k + 1 := ⟨m - 1, by omega⟩
    have hnm := Nat.le_of_succ_le_succ hnm
    have hrespond := fun call => Act.Within.respond hhost (fun _ hop => (ih hnm).op hnm hop) call
    exact ⟨fun s => Act.Within.tellLink.bind fun _ => hrespond (.shown s),
      fun c => hrespond (.sent c)⟩

end Operations
end TunnelView
