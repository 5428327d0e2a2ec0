import TunnelView.Proofs.Steps
import TunnelView.Proofs.Twins

/-!
# Diaries of what happens around a client

Who calls a client may be called by it, and call it again from there, and so on. A diary tells the
whole of it in the order in which it happens: each operation when it begins and when it ends, and
each call of code outside when it begins, together with what the view and the clock are like at that
moment. It is kept next to the memory of the host, the newest entry first.

Code outside is a player: on each call it sees the world and goes on as it likes. It runs operations
one after another, sees how each of them ends, be it by a failure or by an interrupt, and comes back
or stops in the end. A host is a player that follows its response, and the client does the same
whether or not a diary is kept.

Key definitions: `Moment`, `Entry`, `noted`, `Conduct`, `Player`, `Player.outside`,
`Player.session`, `Host.player`.
Key theorems: `Stays.noted`, `Stays.play`, `Host.forget_session`.
-/

namespace TunnelView

/-- What a diary tells of. -/
inductive Moment (τ : Type) where
  | begins (op : Op τ)
  | calls (call : Call)
  | ends (op : Op τ) (outcome : Except (Stop τ) Reply)

/-- An entry of a diary: what happened, and what the view and the clock were like. -/
structure Entry (τ : Type) where
  moment : Moment τ
  view : View τ
  clock : Clock τ Alarm

/-- A memory and a diary. -/
structure Diarist (τ σ : Type) where
  memory : σ
  diary : List (Entry τ) := []

/-- A client around which a diary is kept. -/
abbrev Chronicled (τ σ : Type) := Client (Diarist τ σ)

variable {τ σ : Type}

/-- A client with a diary, in which nothing is written yet. -/
def Client.chronicled (c : Client σ) : Chronicled τ σ := ⟨c.link, c.policy, { memory := c.memory }⟩

/-- The client without its diary. -/
def Client.forget (c : Chronicled τ σ) : Client σ := ⟨c.link, c.policy, c.memory.memory⟩

namespace World

/-- The diary of a world. -/
def diary (w : World τ (Chronicled τ σ)) : List (Entry τ) := w.rest.owner.memory.diary

/-- Writes down a moment. -/
def enter (m : Moment τ) (w : World τ (Chronicled τ σ)) : World τ (Chronicled τ σ) :=
  { w with rest.owner.memory.diary := ⟨m, w.rest.view, w.clock⟩ :: w.diary }

/-- The world without its diary. -/
def forget (w : World τ (Chronicled τ σ)) : World τ (Client σ) where
  clock := w.clock
  rest := { view := w.rest.view, owner := w.rest.owner.forget, events := w.rest.events }

/-- A diary falls into what is later than an entry, the entry, and what is earlier. -/
theorem diary_split {w : World τ (Chronicled τ σ)} {n : ℕ} (hn : n < w.diary.length) :
    w.diary = w.diary.take n ++ w.diary[n] :: w.diary.drop (n + 1) := by
  rw [← List.drop_eq_getElem_cons hn, List.take_append_drop]

theorem diary_enter (m : Moment τ) (w : World τ (Chronicled τ σ)) :
    (w.enter m).diary = ⟨m, w.rest.view, w.clock⟩ :: w.diary := rfl

end World

/-- An operation between the entries for its beginning and its end. -/
def noted (run : Op τ → Run τ (Chronicled τ σ) Reply) (op : Op τ) :
    Run τ (Chronicled τ σ) Reply := fun w =>
  let (outcome, w) := run op (w.enter (.begins op))
  (outcome, w.enter (.ends op outcome))

/-! ### Code outside -/

/-- What code outside does on a call. -/
inductive Conduct (τ σ : Type) where
  /-- It comes back, with or without a stop. -/
  | back (outcome : Except (Stop τ) Unit)
  /-- It writes its own books, and goes on. -/
  | books (memory : σ) (events : List (Event τ)) (next : Conduct τ σ)
  /-- It runs an operation, sees how that ends and what the world is like then, and goes on. -/
  | runs (op : Op τ)
    (next : Except (Stop τ) Reply → World τ (Chronicled τ σ) → Conduct τ σ)

/-- Code outside: what it does on a call, in view of the world. -/
abbrev Player (τ σ : Type) := Call → World τ (Chronicled τ σ) → Conduct τ σ

/-- Does what code outside does, where its operations are run by `run`. -/
def Conduct.play (run : Op τ → Run τ (Chronicled τ σ) Reply) :
    Conduct τ σ → Run τ (Chronicled τ σ) Unit
  | .back outcome, w => (outcome, w)
  | .books memory events next, w =>
    next.play run { w with rest.owner.memory.memory := memory, rest.events := events }
  | .runs op next, w =>
    let (outcome, w) := noted run op w
    (next outcome w).play run w

/-- A call, from the entry for its beginning on. -/
def Player.answer (player : Player τ σ) (run : Op τ → Run τ (Chronicled τ σ) Reply) (call : Call) :
    Run τ (Chronicled τ σ) Unit := fun w =>
  let w := w.enter (.calls call)
  (player call w).play run w

/-- What holds throughout an operation, and at its two entries, holds after it is noted. -/
theorem Stays.noted {I : World τ (Chronicled τ σ) → Prop}
    {run : Op τ → Run τ (Chronicled τ σ) Reply} {op : Op τ}
    (hbegins : ∀ {w}, I w → I (w.enter (.begins op))) (hrun : Stays I (run op))
    (hends : ∀ {w outcome w₁}, run op w = (outcome, w₁) → I w₁ →
      I (w₁.enter (.ends op outcome))) :
    Stays I (TunnelView.noted run op) :=
  fun _ hw => hends rfl (hrun _ (hbegins hw))

/-- What holds through the operations that code outside runs, and does not depend on its books,
holds when it comes back. -/
theorem Stays.play {I : World τ (Chronicled τ σ) → Prop}
    {run : Op τ → Run τ (Chronicled τ σ) Reply}
    (hbooks : ∀ {w} memory events, I w →
      I { w with rest.owner.memory.memory := memory, rest.events := events })
    (hrun : ∀ op, Stays I (TunnelView.noted run op)) (c : Conduct τ σ) : Stays I (c.play run) := by
  induction c with
  | back outcome => exact fun _ hw => hw
  | books memory events next ih => exact fun w hw => ih _ (hbooks memory events hw)
  | runs op next ih => exact fun w hw => ih _ _ _ (hrun op w hw)

/-! ### Sessions -/

section Sessions

variable [Zero τ] [Add τ] [Sub τ] [LT τ] [DecidableLT τ] [LE τ] [DecidableLE τ]

/-- The code outside as a player makes it, down to a depth of calls inside calls. -/
def Player.outside (player : Player τ σ) : ℕ → Outside τ (Chronicled τ σ)
  | 0 =>
    let exhausted : Player τ σ := fun _ _ => .back (.error .exhausted)
    ⟨fun s => exhausted.answer (fun _ => .stop .exhausted) (.shown s),
      fun c => exhausted.answer (fun _ => .stop .exhausted) (.sent c)⟩
  | depth + 1 =>
    let answer := player.answer (Op.run (outside player depth) depth)
    ⟨fun s => answer (.shown s), fun c => answer (.sent c)⟩

/-- Operations one after another, each of them noted, whether or not some of them are stopped. -/
def Player.session (player : Player τ σ) (fuel : ℕ) (ops : List (Op τ))
    (w : World τ (Chronicled τ σ)) : World τ (Chronicled τ σ) :=
  ops.foldl (fun w op => (noted (Op.run (player.outside fuel) fuel) op w).2) w

/-- What each operation keeps when it is noted holds after a session. -/
theorem Player.session_stays {I : World τ (Chronicled τ σ) → Prop} {player : Player τ σ} {fuel : ℕ}
    (h : ∀ op, Stays I (noted (Op.run (player.outside fuel) fuel) op)) {ops : List (Op τ)}
    {w : World τ (Chronicled τ σ)} (hw : I w) : I (player.session fuel ops w) := by
  induction ops generalizing w with
  | nil => exact hw
  | cons op ops ih => exact ih (h op w hw)

end Sessions

/-! ### Hosts -/

/-- Comes back, perhaps with a stop. -/
def comeBack {ο : Type} : Option (Stop τ) → Run τ ο Unit
  | none => pure ()
  | some s => .stop s

theorem discard_apply {ο α : Type} (x : Run τ ο α) (w : World τ ο) :
    discard x w = ((x w).1.map fun _ => (), (x w).2) := by
  show (x >>= fun _ => pure ()) w = _
  rw [Act.bind_apply]
  rcases x w with ⟨_ | _, _⟩ <;> rfl

/-- Runs an operation, and goes on unless it is stopped. -/
def Conduct.after (op : Op τ) (next : World τ (Chronicled τ σ) → Conduct τ σ) : Conduct τ σ :=
  .runs op fun outcome w => match outcome with
    | .ok _ => next w
    | .error stop => .back (.error stop)

/-- Runs operations in order, and then perhaps stops. -/
def Conduct.follow (ending : Option (Stop τ)) : List (Op τ) → Conduct τ σ
  | [] => .back (match ending with
    | none => .ok ()
    | some s => .error s)
  | op :: ops => .after op fun _ => follow ending ops

/-- What a host does on a call. -/
def Host.conduct (host : Host τ σ) : Player τ σ := fun call w =>
  let (memory, response) := host w.rest.owner.memory.memory call
  .books memory (call.event w.clock.now :: w.rest.events) (.follow response.ending response.ops)

/-- A host as a player, whose statuses a link may hear first. -/
def Host.player (host : Host τ σ) : Player τ σ := fun call w =>
  match call, w.rest.owner.link with
  | .shown _, some l =>
    let rest := fun w => if l.overhears.statusAsReport then
        .back (.error (.failure (.unexpected Overhearing.reportListener "status")))
      else host.conduct call w
    if l.listening then
      if l.overhears.statusAsLoss then .after .lose rest else rest w
    else host.conduct call w
  | _, _ => host.conduct call w

/-- A client with a diary next to the same client without it. -/
def Forgets : Around τ (Chronicled τ σ) (Client σ) := fun c e c' e' => c' = c.forget ∧ e' = e

theorem sociable_forgets : Sociable (Forgets : Around τ (Chronicled τ σ) (Client σ)) where
  note _ h := ⟨h.1, congrArg _ h.2⟩
  same h := (congrArg Client.link h.1).symm
  policy h := (congrArg Client.policy h.1).symm
  link f h := by
    obtain ⟨rfl, rfl⟩ := h
    exact ⟨rfl, rfl⟩

theorem Beside.forget (w : World τ (Chronicled τ σ)) : Beside Forgets w w.forget :=
  ⟨rfl, rfl, rfl, rfl⟩

theorem Beside.eq_forget {w : World τ (Chronicled τ σ)} {w' : World τ (Client σ)}
    (h : Beside Forgets w w') : w' = w.forget := by
  obtain ⟨clock', view', owner', events'⟩ := w'
  obtain ⟨rfl, rfl, howner, hevents⟩ := h
  simp only at howner hevents
  rw [howner, hevents]
  rfl

theorem Beside.enter {w : World τ (Chronicled τ σ)} {w' : World τ (Client σ)}
    (h : Beside Forgets w w') (m : Moment τ) : Beside Forgets (w.enter m) w' :=
  ⟨h.clock, h.view, h.around⟩

section Hosts

variable {run : Op τ → Run τ (Chronicled τ σ) Reply} {run' : Op τ → Run τ (Client σ) Reply}
  {host : Host τ σ} {w : World τ (Chronicled τ σ)} {w' : World τ (Client σ)}
  (hrun : ∀ op {w w'}, Beside Forgets w w' → Twins Forgets (run op w) (run' op w'))

/-- Both go on after an operation unless it is stopped. -/
theorem Twins.after {op : Op τ} {next : World τ (Chronicled τ σ) → Conduct τ σ}
    {x rest : Run τ (Client σ) Unit}
    (houtcome : (x w').1 = (TunnelView.noted run op w).1.map fun _ => ())
    (hbeside : Beside Forgets (TunnelView.noted run op w).2 (x w').2)
    (hnext : ∀ {w w'}, Beside Forgets w w' → Twins Forgets ((next w).play run w) (rest w')) :
    Twins Forgets ((Conduct.after op next).play run w) ((do x; rest) w') := by
  have hx : x w' = ((TunnelView.noted run op w).1.map fun _ => (), (x w').2) :=
    Prod.ext houtcome rfl
  rw [Conduct.after, Conduct.play, Act.bind_apply, hx]
  rcases hnoted : TunnelView.noted run op w with ⟨stop | reply, w₁⟩
  all_goals rw [hnoted] at hbeside
  · exact ⟨rfl, hbeside⟩
  · exact hnext hbeside

include hrun

theorem Twins.noted (h : Beside Forgets w w') (op : Op τ) :
    Twins Forgets (TunnelView.noted run op w) (run' op w') := by
  obtain ⟨houtcome, hbeside⟩ := hrun op (h.enter (.begins op))
  exact ⟨houtcome, hbeside.enter _⟩

/-- Operations in order, by induction on what is left of them. -/
theorem Twins.follow (h : Beside Forgets w w') (ops : List (Op τ)) (ending : Option (Stop τ)) :
    Twins Forgets ((Conduct.follow ending ops).play run w)
      ((do runOps run' ops; comeBack ending) w') := by
  induction ops generalizing w w' with
  | nil => cases ending <;> exact ⟨rfl, h⟩
  | cons op ops ih =>
    obtain ⟨houtcome, hbeside⟩ := Twins.noted hrun h op
    have hdiscard := discard_apply (run' op) w'
    have hassoc : (do runOps run' (op :: ops); comeBack ending) =
        (do discard (run' op); (do runOps run' ops; comeBack ending)) := by
      rw [runOps, Act.bind_assoc]
    rw [hassoc]
    refine Twins.after ?_ ?_ fun h => ih h
    · rw [hdiscard, houtcome]
    · rw [hdiscard]
      exact hbeside

/-- What a host does, as it is told of it and as a player. -/
theorem Twins.conduct (h : Beside Forgets w w') (call : Call) :
    Twins Forgets ((host.conduct call w).play run w) (respond host run' call w') := by
  obtain rfl := h.eq_forget
  exact Twins.follow hrun ⟨rfl, rfl, rfl, rfl⟩ _ _

end Hosts

section Depth

variable [Zero τ] [Add τ] [Sub τ] [LT τ] [DecidableLT τ] [LE τ] [DecidableLE τ]
  {w : World τ (Chronicled τ σ)} {w' : World τ (Client σ)}

theorem noted_lose {out : Outside τ (Chronicled τ σ)} {fuel : ℕ} {l : Link}
    (hl : w.rest.owner.link = some l) :
    let lost := (Link.lose (w.enter (.begins .lose))).2
    noted (Op.run out fuel) .lose w = (.ok .nothing, lost.enter (.ends .lose (.ok .nothing))) := by
  have hbegun : (w.enter (.begins .lose)).rest.owner.link = some l := hl
  simp only [noted, Op.run, withLink, Act.bind_apply, Client.link?, hbegun]
  rfl

section Hearing

variable {out : Outside τ (Chronicled τ σ)} {run' : Op τ → Run τ (Client σ) Reply} {n : ℕ}
  (host : Host τ σ)
  (hrun : ∀ op {w w'}, Beside Forgets w w' → Twins Forgets (Op.run out n op w) (run' op w'))

include hrun

/-- A status that is taken for a report, which it is not, is kept from the host. -/
theorem Twins.mistaken (h : Beside Forgets w w') (s : Status) (asReport : Bool) :
    Twins Forgets
      ((if asReport then .back (.error (.failure (.unexpected Overhearing.reportListener "status")))
        else host.conduct (.shown s) w).play (Op.run out n) w)
      (((if asReport then .fail (.unexpected Overhearing.reportListener "status") else Pure.pure () :
          Run τ (Client σ) Unit) >>= fun _ => respond host run' (.shown s)) w') := by
  cases asReport with
  | true => exact ⟨rfl, h⟩
  | false => exact Twins.conduct hrun h _

/-- A link that hears a status does so next to the diary as well, before the host is called. -/
theorem Twins.shown (h : Beside Forgets w w') (s : Status) :
    Twins Forgets ((host.player (.shown s) w).play (Op.run out n) w)
      ((do tellLink; respond host run' (.shown s)) w') := by
  have hlink : w'.rest.owner.link = w.rest.owner.link := (sociable_forgets.same h.around).symm
  rw [tellLink, Act.bind_assoc, Act.bind_apply]
  simp only [Client.link?, Host.player, hlink]
  cases hl : w.rest.owner.link with
  | none => exact Twins.conduct hrun h _
  | some l =>
    by_cases hlistening : l.listening
    · simp only [hlistening, if_true, Link.overhear]
      by_cases hloss : l.overhears.statusAsLoss
      · rw [if_pos hloss, if_pos hloss, Act.bind_assoc]
        have hlost := (h.enter (.begins .lose)).lose sociable_forgets
        refine Twins.after ?_ ?_ fun h => Twins.mistaken host hrun h s _
        · rw [noted_lose hl, ← hlost.outcome]
          rfl
        · rw [noted_lose hl]
          exact hlost.beside.enter _
      · rw [if_neg hloss, if_neg hloss]
        exact Twins.mistaken host hrun h s _
    · simp only [hlistening, Link.overhear]
      exact Twins.conduct hrun h _

end Hearing

/-- **A host is a player**, at any depth of calls inside calls. -/
theorem Host.op_player (host : Host τ σ) (n fuel : ℕ) (op : Op τ) (h : Beside Forgets w w') :
    Twins Forgets (op.run (host.player.outside n) fuel w) (op.run (outside host n) fuel w') := by
  induction n generalizing fuel op w w' with
  | zero =>
    have hexhausted : ∀ call {w w'}, Beside Forgets w w' → Twins Forgets
        ((Conduct.back (.error .exhausted)).play (fun _ => .stop .exhausted)
          (w.enter (.calls call)))
        ((.stop .exhausted : Run τ (Client σ) Unit) w') := fun call _ _ h => ⟨rfl, h.enter _⟩
    exact h.everyOp sociable_forgets (fun s => hexhausted (.shown s))
      (fun c => hexhausted (.sent c)) fuel op
  | succ n ih =>
    refine h.everyOp sociable_forgets (fun s _ _ h => ?_) (fun c _ _ h => ?_) fuel op
    · exact Twins.shown host (fun op _ _ h => ih n op h) (h.enter (.calls (.shown s))) s
    · exact Twins.conduct (fun op _ _ h => ih n op h) (h.enter (.calls (.sent c))) _

/-- **Nothing changes by keeping a diary**: without it, a session of a host that is noted is the
session of that host. -/
theorem Host.forget_session (host : Host τ σ) (fuel : ℕ) (ops : List (Op τ))
    (w : World τ (Chronicled τ σ)) : (host.player.session fuel ops w).forget =
      ops.foldl (fun w op => (op.run (outside host fuel) fuel w).2) w.forget := by
  induction ops generalizing w with
  | nil => rfl
  | cons op ops ih =>
    have hop := Twins.noted (fun op _ _ h => host.op_player fuel fuel op h) (.forget w) op
    rw [List.foldl_cons, hop.beside.eq_forget]
    exact ih _

end Depth
end TunnelView
