import TunnelView.Proofs.Course

/-!
# Courses of a watch

Each move of a view is a move of its watch, possible for both or for neither, and the same report
passes the quiet window. What operations do is a course: `Session.exists_course`.

Key definitions: `Watch.meet`, `Watch.meetAll`, `Watch.passes`.
Key theorems: `Matches.meet`, `Matches.course`, `Session.exists_course`.
-/

namespace TunnelView

variable {τ ο σ : Type}

section Fires

variable [LinearOrder τ] {fine : ο → Prop} {d : Delays τ} {w : World τ ο} {m : Watch τ}

namespace Matches

/-- A call in the timeout slot that fires gives an assumption up. -/
theorem next?_of_fires (h : Matches fine d w m) {move : Move τ} {t : Timer τ Alarm}
    (hf : move.fires w = some t) (ha : w.rest.view.timeout.armed = some t.serial) :
    move = .ring ∧ m.next? = some (t.deadline, .giveUp) := by
  cases move <;> simp only [Move.fires, reduceCtorEq] at hf
  refine ⟨rfl, ?_⟩
  obtain ⟨i, j, hi, hj, -, hapart, hpop⟩ := h.popDue none
  rw [Watch.due?_none_eq_next?] at hpop
  rcases hn : m.next? with _ | ⟨u, s | _⟩ <;> rw [hpop, hn] at hf
  · contradiction
  · obtain rfl := Option.some.inj hf
    rw [hj] at ha
    obtain ⟨v, hv, he⟩ := Option.map_eq_some_iff.mp ha
    exact absurd he.symm (hapart (by simp [Watch.deferred_of_next? hn]) (by simp [hv]))
  · obtain rfl := Option.some.inj hf
    rfl

/-- A call that gives an assumption up fires out of the timeout slot. -/
theorem fires_giveUp (h : Matches fine d w m) {time : τ} (hn : m.next? = some (time, .giveUp)) :
    ∃ t, Move.ring.fires w = some t ∧ t.call = .giveUp ∧
      w.rest.view.timeout.armed = some t.serial := by
  obtain ⟨i, j, hi, hj, -, -, hpop⟩ := h.popDue none
  rw [Watch.due?_none_eq_next?, hn] at hpop
  refine ⟨⟨time, j, .giveUp⟩, congrArg Prod.fst hpop, rfl, ?_⟩
  rw [hj, Watch.deadline_of_next? hn]
  rfl

end Matches
end Fires

section Meet

variable [AddCommGroup τ] [LinearOrder τ]

namespace Watch

/-- What a move does to a watch. -/
def meet (d : Delays τ) (m : Watch τ) : Move τ → Watch τ
  | .report s => m.receive d s
  | .assume a => m.assume d a
  | .reset => m.drop
  | .ring =>
    match m.next? with
    | none => m
    | some (t, b) => m.ring d t b
  | .wait time => m.wait time

/-- What a course does to a watch. -/
def meetAll (d : Delays τ) (moves : List (Move τ)) (m : Watch τ) : Watch τ := moves.foldl (meet d) m

/-- Whether a move is possible for a watch. -/
def Allows (m : Watch τ) : Move τ → Prop
  | .ring => m.next? ≠ none
  | .wait time => m.due? (some time) = none
  | _ => True

/-- The report that passes the quiet window by a move. -/
def passes (d : Delays τ) (m : Watch τ) : Move τ → Option Status
  | .report s => if m.closed || m.tooSoon d then none else some s
  | .ring =>
    match m.next? with
    | some (_, .report s) => some s
    | _ => none
  | _ => none

/-- Whether a course is possible for a watch. -/
def AllowsAll (d : Delays τ) : List (Move τ) → Watch τ → Prop
  | [], _ => True
  | move :: moves, m => m.Allows move ∧ AllowsAll d moves (m.meet d move)

/-- The reports that pass the quiet window in a course, in order. -/
def passedAll (d : Delays τ) : List (Move τ) → Watch τ → List Status
  | [], _ => []
  | move :: moves, m => (m.passes d move).toList ++ passedAll d moves (m.meet d move)

variable {d : Delays τ} {m : Watch τ}

theorem meetAll_append {before after : List (Move τ)} :
    m.meetAll d (before ++ after) = (m.meetAll d before).meetAll d after :=
  List.foldl_append

theorem passedAll_append {before after : List (Move τ)} : m.passedAll d (before ++ after) =
    m.passedAll d before ++ (m.meetAll d before).passedAll d after := by
  induction before generalizing m with
  | nil => rfl
  | cons move before ih =>
    simp only [List.cons_append, passedAll, ih, List.append_assoc]
    rfl

/-- What passes the quiet window is acted on, now or at its deadline. -/
theorem meet_of_passes {move : Move τ} {s : Status} (h : m.passes d move = some s) :
    ∃ t, m.meet d move = (m.wait t).pass d s := by
  cases move <;> simp only [passes, reduceCtorEq] at h
  case report s' =>
    split at h
    · contradiction
    · rename_i hn
      obtain rfl := Option.some.inj h
      obtain ⟨hc, hs⟩ : m.closed = false ∧ m.tooSoon d = false := by simpa using hn
      refine ⟨m.now, ?_⟩
      rw [meet, receive, hc, hs, wait, max_self]
      rfl
  case ring =>
    split at h
    · rename_i t s' hn
      obtain rfl := Option.some.inj h
      refine ⟨t, ?_⟩
      rw [meet, hn]
      rfl
    · contradiction

theorem Sound.open_of_passes (hm : m.Sound d) {move : Move τ} {s : Status}
    (h : m.passes d move = some s) : m.closed = false := by
  cases move <;> simp only [passes, reduceCtorEq] at h
  case report s' =>
    split at h
    · contradiction
    · simp_all
  case ring =>
    split at h
    · exact hm.ripe.open_of_deferred (deferred_of_next? ‹_›)
    · contradiction

/-- When no report passes and the user does not intervene, nothing is shown and no assumption
changes, unless one is given up. -/
theorem meet_of_not_passes {move : Move τ} (hl : move.intervenes = false)
    (h : m.passes d move = none) : (move = .ring ∧ ∃ t, m.next? = some (t, .giveUp)) ∨
      (m.meet d move).status = m.status ∧ (m.meet d move).fallback = m.fallback ∧
        (m.meet d move).deadline = m.deadline ∧ (m.meet d move).shown = m.shown := by
  cases move with
  | report s =>
    right
    have hs : m.closed ∨ m.tooSoon d := by
      by_contra hn
      simp_all [passes]
    rw [meet, receive]
    split
    · exact ⟨rfl, rfl, rfl, rfl⟩
    · rw [if_pos (hs.resolve_left ‹_›)]
      exact ⟨rfl, rfl, rfl, rfl⟩
  | assume a => contradiction
  | reset => contradiction
  | ring =>
    rcases hn : m.next? with _ | ⟨t, s | _⟩
    · right
      rw [meet, hn]
      exact ⟨rfl, rfl, rfl, rfl⟩
    · simp [passes, hn] at h
    · exact .inl ⟨rfl, t, rfl⟩
  | wait time => exact .inr ⟨rfl, rfl, rfl, rfl⟩

/-- An assumption that is given up leaves what was kept behind it. -/
theorem meet_of_giveUp {t : τ} {kept : Status} (hf : m.fallback = some kept)
    (hn : m.next? = some (t, .giveUp)) :
    (m.meet d .ring).now = max m.now t ∧ (m.meet d .ring).status = kept ∧
      (m.meet d .ring).fallback = none ∧ (m.meet d .ring).deadline = none ∧
      (m.meet d .ring).shown = (max m.now t, kept) :: m.shown := by
  have he : m.meet d .ring = commit kept (m.wait t).drop := by
    rw [meet, hn]
    exact ring_giveUp d hf t
  rw [he]
  exact ⟨rfl, rfl, rfl, rfl, rfl⟩

theorem fallback_of_giveUp {t : τ} (hn : m.next? = some (t, .giveUp)) :
    (m.meet d .ring).fallback = none := by
  cases hf : m.fallback with
  | none =>
    rw [meet, hn]
    simp [ring, giveUp, wait, hf]
  | some kept => exact (meet_of_giveUp hf hn).2.2.1

theorem meet_closed (move : Move τ) : (m.meet d move).closed = m.closed := by
  cases move with
  | report s => exact receive_closed d s m
  | assume a => exact assume_closed d a m
  | reset => rfl
  | ring =>
    rw [meet]
    split
    · rfl
    · exact ring_closed d _ _ m
  | wait time => rfl

theorem meetAll_closed (moves : List (Move τ)) : (m.meetAll d moves).closed = m.closed := by
  induction moves generalizing m with
  | nil => rfl
  | cons move moves ih => exact ih.trans (meet_closed move)

variable [IsOrderedAddMonoid τ]

theorem Sound.meet (h : m.Sound d) (hw : 0 < d.window) (hp : 0 < d.patience) {move : Move τ}
    (ha : m.Allows move) : (m.meet d move).Sound d := by
  cases move with
  | report s => exact h.receive hw hp s
  | assume a => exact h.assume hp a
  | reset => exact h.drop
  | ring =>
    rw [Watch.meet]
    split
    · exact h
    · exact h.ring hp ‹_›
  | wait time =>
    exact h.wait (fun _ _ hs => (lt_deferred_of_due?_eq_none ha hs).le)
      fun _ hu => (lt_deadline_of_due?_eq_none ha hu).le

end Watch

variable {fine : ο → Prop} {d : Delays τ} {w : World τ ο} {m : Watch τ} {out : Outside τ ο}

namespace Matches

omit [AddCommGroup τ] in
theorem possible_iff (h : Matches fine d w m) (move : Move τ) :
    move.Possible w ↔ m.Allows move := by
  cases move with
  | ring =>
    refine not_congr ?_
    rw [h.popDue_eq_none, Watch.due?_none_eq_next?]
  | wait time => exact h.popDue_eq_none (some time)
  | _ => exact Iff.rfl

theorem admits (h : Matches fine d w m) :
    w.rest.view.admits w.clock.now = (!m.closed && !m.tooSoon d) := by
  rw [View.admits, h.closed, h.tooSoon]

variable [IsOrderedAddMonoid τ]

/-- The same report passes the quiet window of a view and of its watch. -/
theorem passes_eq (h : Matches fine d w m) (hm : m.Sound d) (move : Move τ) :
    move.passes w = m.passes d move := by
  cases move with
  | report s =>
    simp only [Move.passes, Move.brings, Option.bind_some, Watch.passes, h.admits]
    cases m.closed <;> cases m.tooSoon d <;> rfl
  | ring =>
    obtain ⟨i, j, hi, hj, ht, ha, hpop⟩ := h.popDue none
    rw [Watch.due?_none_eq_next?] at hpop
    rw [Move.passes, Move.brings, Watch.passes, hpop]
    rcases hn : m.next? with _ | ⟨t, s | _⟩
    · rfl
    · have hd := Watch.deferred_of_next? hn
      have hadmits := (h.fired_report hj ht hn).admits
      rw [hm.ripe.not_tooSoon hn,
        show (m.wait t).closed = false from hm.ripe.open_of_deferred hd] at hadmits
      simp only [Watch.Bell.serial, Watch.Bell.alarm, Slot.claim?_eq, hi, hd, Option.map_some, if_true,
        Option.bind_some]
      exact if_pos hadmits
    · rfl
  | _ => rfl

theorem meet (h : Matches fine d w m) (hm : m.Sound d) (hout : out.LooksOn fine)
    (hw : 0 < d.window) (hp : 0 < d.patience) {move : Move τ} (hposs : move.Possible w) :
    Ends fine d (move.run out w) (m.meet d move) := by
  cases move with
  | report s => exact h.receive hout hw hp s
  | assume a => exact h.assume hout hp a
  | reset => exact h.drop
  | ring =>
    rcases hn : m.next? with _ | ⟨t, b⟩
    · exact absurd hn ((h.possible_iff .ring).mp hposs)
    · have hd : m.due? none = some (t, b) := by rwa [Watch.due?_none_eq_next?]
      obtain ⟨call, w₁, hpop, -, -, -, hfire⟩ := h.ring hm.ripe hout hw hp hd
      rw [Move.run, Act.bind_apply, hpop, Watch.meet, hn]
      exact hfire
  | wait time =>
    have ha : m.due? (some time) = none := (h.possible_iff (.wait time)).mp hposs
    rw [Move.run, Act.bind_apply, h.popDue_none ha]
    exact h.tidied.wait time

theorem course (h : Matches fine d w m) (hm : m.Sound d) (hout : out.LooksOn fine)
    (hw : 0 < d.window) (hp : 0 < d.patience) {moves : List (Move τ)}
    (hposs : Course.Possible out moves w) :
    Matches fine d (Course.run out moves w) (m.meetAll d moves) ∧ (m.meetAll d moves).Sound d := by
  induction moves generalizing w m with
  | nil => exact ⟨h, hm⟩
  | cons move moves ih =>
    have ha := (h.possible_iff move).mp hposs.1
    exact ih (h.meet hm hout hw hp hposs.1).2 (hm.meet hw hp ha) hposs.2

/-- A course is possible for both or for neither, and the same reports pass. -/
theorem possible_course_iff (h : Matches fine d w m) (hm : m.Sound d) (hout : out.LooksOn fine)
    (hw : 0 < d.window) (hp : 0 < d.patience) (moves : List (Move τ)) :
    Course.Possible out moves w ↔ m.AllowsAll d moves := by
  induction moves generalizing w m with
  | nil => exact Iff.rfl
  | cons move moves ih =>
    rw [Course.Possible, Watch.AllowsAll, h.possible_iff]
    refine and_congr_right fun ha => ?_
    exact ih (h.meet hm hout hw hp ((h.possible_iff move).mpr ha)).2 (hm.meet hw hp ha)

theorem passed_eq (h : Matches fine d w m) (hm : m.Sound d) (hout : out.LooksOn fine)
    (hw : 0 < d.window) (hp : 0 < d.patience) {moves : List (Move τ)}
    (hposs : Course.Possible out moves w) : Course.passed out moves w = m.passedAll d moves := by
  induction moves generalizing w m with
  | nil => rfl
  | cons move moves ih =>
    have ha := (h.possible_iff move).mp hposs.1
    rw [Course.passed, Watch.passedAll, h.passes_eq hm,
      ih (h.meet hm hout hw hp hposs.1).2 (hm.meet hw hp ha) hposs.2]

end Matches
end Meet

/-! ### Operations are courses -/

section Operations

variable [AddCommGroup τ] [LinearOrder τ]

/-- The moves from outside that an operation on a view stands for. -/
def Op.asks : Op τ → List (Move τ)
  | .notify r => r.read.toOption.toList.map .report
  | .expect kind => (Assumption.ofValue? kind).toList.map .assume
  | .reset => [.reset]
  | _ => []

variable {fine : ο → Prop} {d : Delays τ} {w : World τ ο} {m : Watch τ} {out : Outside τ ο}
variable [IsOrderedAddMonoid τ]

namespace Matches

/-- What falls due fires by a move, and the run goes on where the move ends. -/
theorem ring_run (h : Matches fine d w m) (hm : m.Sound d) (hout : out.LooksOn fine)
    (hw : 0 < d.window) (hp : 0 < d.patience) {limit : Option τ} {t : τ} {b : Watch.Bell}
    (hd : m.due? limit = some (t, b)) : ∃ call w₁,
      Timed.popDue limit w = (.ok (some call), w₁) ∧ Move.Possible w .ring ∧
      Move.ring.run out w = View.fire out call w₁ ∧
      Ends fine d (View.fire out call w₁) (m.ring d t b) := by
  obtain ⟨call, w₁, hpop, -, -, -, hfire⟩ := h.ring hm.ripe hout hw hp hd
  have hn := (Watch.due?_eq_some_iff.mp hd).1
  have hfirst : (w.clock.popDue limit).1 = some call := Except.ok.inj (congrArg Prod.fst hpop)
  have hnone : Timed.popDue none w = (.ok (some call), w₁) := by
    rw [← hpop]
    exact congrArg (fun r => (Except.ok r.1, { w with clock := r.2 })) (Clock.popDue_eq hfirst).symm
  refine ⟨call, w₁, hpop, ?_, ?_, hfire⟩
  · rw [h.possible_iff, Watch.Allows, hn]
    simp
  · rw [Move.run, Act.bind_apply, hnone]

/-- Going to a time is to let calls fire and then to wait. -/
theorem advanceTo_course (hout : out.LooksOn fine) (hw : 0 < d.window) (hp : 0 < d.patience)
    {fuel : ℕ} (h : Matches fine d w m) (hm : m.Sound d) (hf : m.weight < fuel) (time : τ) :
    ∃ moves, moves.filter Move.isAsked = [] ∧ Course.Possible out moves w ∧
      (Timed.advanceTo (View.fire out) fuel time w).2 = Course.run out moves w := by
  induction fuel generalizing w m with
  | zero => omega
  | succ fuel ih =>
    rw [Timed.advanceTo, Act.bind_apply, Timed.drain, Act.bind_apply]
    rcases hd : m.due? (some time) with _ | ⟨t, b⟩
    · refine ⟨[.wait time], rfl, ⟨(h.popDue_eq_none _).mpr hd, trivial⟩, ?_⟩
      rw [h.popDue_none hd, Course.run, Move.run, Act.bind_apply, h.popDue_none hd]
      rfl
    · obtain ⟨call, w₁, hpop, hposs, hrun, hr, h₂⟩ := h.ring_run hm hout hw hp hd
      have hn := (Watch.due?_eq_some_iff.mp hd).1
      have hlt := Watch.ring_weight d hn
      obtain ⟨moves, ha, hmoves, he⟩ := ih h₂ (hm.ring hp hn) (by omega)
      rw [← hrun] at hmoves he
      refine ⟨.ring :: moves, ha, ⟨hposs, hmoves⟩, ?_⟩
      rw [hpop, Course.run, ← he, Timed.advanceTo, Act.bind_apply]
      simp only [Act.bind_apply, ← hrun] at hr ⊢
      rcases hf : Move.ring.run out w with ⟨r, w₂⟩
      rw [hf] at hr
      obtain rfl : r = .ok () := hr
      rfl

/-- Running until idle is to let calls fire and then, unless the limit is used up, to wait for no
time. -/
theorem idle_course (hout : out.LooksOn fine) (hw : 0 < d.window) (hp : 0 < d.patience) {n : ℕ}
    (h : Matches fine d w m) (hm : m.Sound d) (most : ℤ) :
    ∃ moves, moves.filter Move.isAsked = [] ∧ Course.Possible out moves w ∧
      (Timed.drainAll (View.fire out) most n w).2 = Course.run out moves w := by
  induction n generalizing w m with
  | zero => exact ⟨[], rfl, trivial, rfl⟩
  | succ n ih =>
    rw [Timed.drainAll, Act.bind_apply]
    rcases hn : m.next? with _ | ⟨t, b⟩
    · have hnone : m.due? none = none := by rwa [Watch.due?_none_eq_next?]
      have hnow : m.due? (some w.clock.now) = none := by rw [Watch.due?, hn]; rfl
      refine ⟨[.wait w.clock.now], rfl, ⟨(h.popDue_eq_none _).mpr hnow, trivial⟩, ?_⟩
      rw [h.popDue_none hnone, Course.run, Move.run, Act.bind_apply, h.popDue_none hnow]
      show _ = { w with clock := { w.clock.tidied with now := later w.clock.now w.clock.now } }
      rw [later_eq_max, max_self]
      rfl
    · have hd : m.due? none = some (t, b) := by rwa [Watch.due?_none_eq_next?]
      obtain ⟨call, w₁, hpop, hposs, hrun, hr, h₂⟩ := h.ring_run hm hout hw hp hd
      obtain ⟨moves, ha, hmoves, he⟩ := ih h₂ (hm.ring hp hn)
      rw [← hrun] at hmoves he
      refine ⟨.ring :: moves, ha, ⟨hposs, hmoves⟩, ?_⟩
      rw [hpop, Course.run, ← he]
      simp only [Act.bind_apply, ← hrun] at hr ⊢
      rcases hf : Move.ring.run out w with ⟨r, w₂⟩
      rw [hf] at hr
      obtain rfl : r = .ok () := hr
      rfl

end Matches

variable {host : Host τ σ} {fuel : ℕ} {w : World τ (Client σ)}

/-- An operation that closes nothing runs a course. -/
theorem Op.exists_course (h : Matches Client.Undisturbed d w m) (hm : m.Sound d)
    (hhost : host.LooksOn) (hw : 0 < d.window) (hp : 0 < d.patience) (hf : 4 ≤ fuel) {op : Op τ}
    (hop : op.onView) (hc : op.closes = false) : ∃ moves, moves.filter Move.isAsked = op.asks ∧
      Course.Possible (outside host fuel) moves w ∧
      (op.run (outside host fuel) fuel w).2 = Course.run (outside host fuel) moves w := by
  obtain ⟨n, rfl⟩ : ∃ n, fuel = n + 1 := ⟨fuel - 1, by omega⟩
  have hout := outside_looksOn (τ := τ) hhost n
  have hlt := m.weight_le
  cases op <;> simp only [Op.onView, Op.closes, Bool.false_eq_true, Bool.true_eq_false] at hop hc
  case notify r =>
    simp only [Op.run, Op.asks]
    cases r.read with
    | error fault => exact ⟨[], rfl, trivial, rfl⟩
    | ok s => exact ⟨[.report s], rfl, ⟨trivial, trivial⟩, congrArg Prod.snd (silently_apply _ w)⟩
  case expect kind =>
    simp only [Op.run, Op.asks, View.expect]
    cases Assumption.ofValue? kind with
    | none => exact ⟨[], rfl, trivial, rfl⟩
    | some a => exact ⟨[.assume a], rfl, ⟨trivial, trivial⟩, congrArg Prod.snd (silently_apply _ w)⟩
  case reset => exact ⟨[.reset], rfl, ⟨trivial, trivial⟩, congrArg Prod.snd (silently_apply _ w)⟩
  case advance delta =>
    simp only [Op.run, Op.asks, Timed.advance, silently_apply]
    split
    · exact ⟨[], rfl, trivial, rfl⟩
    · exact h.advanceTo_course hout hw hp hm (by omega) _
  case advanceTo time =>
    simp only [Op.run, Op.asks, silently_apply]
    exact h.advanceTo_course hout hw hp hm (by omega) time
  case idle most =>
    simp only [Op.run, Op.asks, Timed.runUntilIdle, silently_apply]
    exact h.idle_course hout hw hp hm most

theorem Matches.exists_course (h : Matches Client.Undisturbed d w m) (hm : m.Sound d)
    (hhost : host.LooksOn) (hw : 0 < d.window) (hp : 0 < d.patience) (hf : 4 ≤ fuel)
    {ops : List (Op τ)} (hops : ∀ op ∈ ops, op.onView ∧ op.closes = false) :
    ∃ moves, moves.filter Move.isAsked = ops.flatMap Op.asks ∧
      Course.Possible (outside host fuel) moves w ∧
      Session.after host fuel ops w = Course.run (outside host fuel) moves w := by
  induction ops generalizing w m with
  | nil => exact ⟨[], rfl, trivial, rfl⟩
  | cons op ops ih =>
    obtain ⟨hop, hc⟩ := hops op (by simp)
    obtain ⟨first, ha, hposs, he⟩ := Op.exists_course h hm hhost hw hp hf hop hc
    have h₁ := (h.runOp hm.ripe hhost hw hp hf hop).2
    have hrest : ∀ op ∈ ops, op.onView ∧ op.closes = false := fun op hop => hops op (by simp [hop])
    obtain ⟨rest, ha', hposs', he'⟩ := ih h₁ (hm.runOp hw hp op) hrest
    rw [he] at hposs' he'
    refine ⟨first ++ rest, ?_, Course.possible_append.mpr ⟨hposs, hposs'⟩, ?_⟩
    · rw [List.filter_append, ha, ha', List.flatMap_cons]
    · rw [Course.run_append, ← he', ← he]
      rfl

/-- **A session is a course.** What operations do to a view, if they do not close it, is a course
whose moves from outside are those of the operations, in their order. -/
theorem Session.exists_course (hhost : host.LooksOn) (hw : 0 < d.window) (hp : 0 < d.patience)
    (hf : 4 ≤ fuel) {client : Client σ} (hc : client.Undisturbed) (now : τ) {ops : List (Op τ)}
    (hops : ∀ op ∈ ops, op.onView ∧ op.closes = false) :
    ∃ moves, moves.filter Move.isAsked = ops.flatMap Op.asks ∧
      Course.Possible (outside host fuel) moves (Session.start d now client) ∧
      Session.after host fuel ops (Session.start d now client) =
        Course.run (outside host fuel) moves (Session.start d now client) :=
  (Matches.start client hc now).exists_course (.start now) hhost hw hp hf hops

end Operations
end TunnelView
