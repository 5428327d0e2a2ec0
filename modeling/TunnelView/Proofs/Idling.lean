import Mathlib
import TunnelView.Proofs.Stays

/-!
# How far a clock runs until it is idle

The drain of a clock is what fires on it, one call after another, if nobody puts a limit to it: each
call may put further ones on the clock and let go of others, so the drain may also go on for ever. A
run until idle with a limit of `n` fires the first `n` calls of the drain, or all of them if there
are fewer. It comes back just if there are fewer. So it also fails if the last call that the limit
allows is the last one of all and leaves nothing behind, and with a limit of zero always.

Key definitions: `Timed.Firings`, `Timed.Idle`, `Timed.Drains`.
Key theorems: `Timed.Firings.eq_take`, `Timed.Drains.length_le`, `Timed.drainAll_cases`,
`Timed.idles_within_limit`, `Timed.fails_though_idle`.
-/

namespace TunnelView

variable {τ κ ω : Type} [LT τ] [DecidableLT τ] [LE τ] [DecidableLE τ]

/-- With all deadlines in their places among the times, a clock has nothing that falls due just if
nothing is pending. -/
theorem Clock.popDue_none_iff {c : Clock τ κ} (hord : c.ordered = true) :
    c.popDue none = (none, c.tidied) ↔ c.pending = 0 := by
  have hfirst : c.tidied.first? = c.timers.head? := if_pos hord
  rw [Clock.pending, List.length_eq_zero_iff, Clock.popDue, hfirst]
  cases c.timers with
  | nil => simp
  | cons t rest => simp

namespace Timed

/-- A stretch of the drain of a clock: the calls that fire, each with the world that it finds, and the
world that they lead to. -/
inductive Firings [Zero τ] [Add τ] (fire : Fire (Clock τ κ) ω τ κ) : Timed (Clock τ κ) ω →
    List (Timer τ κ × Timed (Clock τ κ) ω) → Timed (Clock τ κ) ω → Prop
  | rest (w : Timed (Clock τ κ) ω) : Firings fire w [] w
  | call {w w₁ w' t clock calls} : w.clock.popDue none = (some t, clock) →
    fire t { w with clock } = (.ok (), w₁) → Firings fire w₁ calls w' →
    Firings fire w ((t, { w with clock }) :: calls) w'

/-- Whether there is nothing on the clock that could fire. -/
def Idle (w : Timed (Clock τ κ) ω) : Prop := w.clock.popDue none = (none, w.clock.tidied)

/-- The world with its clock tidied, as a look for what falls due leaves it. -/
def tidied (w : Timed (Clock τ κ) ω) : Timed (Clock τ κ) ω := { w with clock := w.clock.tidied }

variable [Zero τ] [Add τ] {fire : Fire (Clock τ κ) ω τ κ} {w w₁ w₂ : Timed (Clock τ κ) ω}
  {calls all : List (Timer τ κ × Timed (Clock τ κ) ω)}

/-- A drain that comes to an end. -/
def Drains (fire : Fire (Clock τ κ) ω τ κ) (w : Timed (Clock τ κ) ω)
    (calls : List (Timer τ κ × Timed (Clock τ κ) ω)) (w' : Timed (Clock τ κ) ω) : Prop :=
  Firings fire w calls w' ∧ w'.Idle

/-- There is only one drain: of two stretches the shorter one is the beginning of the other. -/
theorem Firings.eq_take (h : Firings fire w calls w₁) (hall : Firings fire w all w₂)
    (hle : calls.length ≤ all.length) : calls = all.take calls.length := by
  induction h generalizing all with
  | rest w => rw [List.length_nil, List.take_zero]
  | call hpop hfire _ ih =>
    cases hall with
    | rest => exact absurd hle (Nat.not_succ_le_zero _)
    | call hpop' hfire' hrest =>
      obtain ⟨ht, rfl⟩ := Prod.mk.inj (hpop.symm.trans hpop')
      obtain rfl := Option.some.inj ht
      obtain rfl := (Prod.mk.inj (hfire.symm.trans hfire')).2
      rw [List.length_cons, List.take_succ_cons, ← ih hrest (Nat.le_of_succ_le_succ hle)]

/-- Nothing fires beyond the end of a drain. -/
theorem Drains.length_le (h : Drains fire w all w₂) (hcalls : Firings fire w calls w₁) :
    calls.length ≤ all.length := by
  obtain ⟨hall, hidle⟩ := h
  induction hall generalizing calls with
  | rest w =>
    cases hcalls with
    | rest => exact Nat.le_refl _
    | call hpop _ _ => cases hidle.symm.trans hpop
  | call hpop hfire _ ih =>
    cases hcalls with
    | rest => exact Nat.zero_le _
    | call hpop' hfire' hrest =>
      obtain ⟨ht, rfl⟩ := Prod.mk.inj (hpop.symm.trans hpop')
      obtain rfl := Option.some.inj ht
      obtain rfl := (Prod.mk.inj (hfire.symm.trans hfire')).2
      exact Nat.succ_le_succ (ih hrest hidle)

/-- With calls that always come back, a run with room for `n` firings ends in one of two ways, by
induction on `n`: the drain is over before there is no room any more, or there is none. -/
theorem drainAll_cases (hfire : ∀ t w, (fire t w).1 = .ok ()) (most : ℤ) (n : ℕ)
    (w : Timed (Clock τ κ) ω) :
    (∃ calls w', Drains fire w calls w' ∧ calls.length < n ∧
      drainAll fire most n w = (.ok (), w'.tidied)) ∨
    ∃ calls w', Firings fire w calls w' ∧ calls.length = n ∧
      drainAll fire most n w = (.error (.failure (.stillPending most)), w') := by
  induction n generalizing w with
  | zero => exact .inr ⟨[], w, .rest w, rfl, rfl⟩
  | succ n ih =>
    rw [drainAll, Act.bind_apply]
    rcases hpop : w.clock.popDue none with ⟨_ | t, clock⟩
    · rw [popDue_apply hpop]
      obtain rfl := Clock.popDue_of_none hpop
      exact .inl ⟨[], w, ⟨.rest w, hpop⟩, Nat.succ_pos n, rfl⟩
    · rw [popDue_apply hpop]
      dsimp only
      rw [Act.bind_apply]
      have hok := hfire t { w with clock }
      rcases hrun : fire t { w with clock } with ⟨stop | u, w₁⟩
      · rw [hrun] at hok
        cases hok
      · dsimp only
        rcases ih w₁ with ⟨calls, w', ⟨hcalls, hidle⟩, hlt, hend⟩ | ⟨calls, w', hcalls, hlen, hend⟩
        · exact .inl ⟨_, w', ⟨.call hpop hrun hcalls, hidle⟩, Nat.succ_lt_succ hlt, hend⟩
        · exact .inr ⟨_, w', .call hpop hrun hcalls, congrArg Nat.succ hlen, hend⟩

/-- **A run until idle comes back just if the drain takes fewer calls than the limit.** Let calls
always come back, whatever they put on the clock or let go of. Then the run comes back just if the
drain is over after fewer calls than the limit, and it fails just if as many calls as that would
fire; nothing else can happen. Either way what fires is the beginning of the drain, as far as the
limit goes: all of a drain that is shorter, and as many calls as the limit of any other. -/
theorem idles_within_limit (hfire : ∀ t w, (fire t w).1 = .ok ()) (most : ℤ)
    (w : Timed (Clock τ κ) ω) :
    let run := runUntilIdle fire most w
    (run.1 = .ok () ↔ ∃ calls w', Drains fire w calls w' ∧ calls.length < most.toNat) ∧
    (run.1 = .error (.failure (.stillPending most)) ↔
      ∃ calls w', Firings fire w calls w' ∧ calls.length = most.toNat) ∧
    (run.1 = .ok () ∨ run.1 = .error (.failure (.stillPending most))) ∧
    ∃ calls w', Firings fire w calls w' ∧ (run.2 = w' ∨ run.2 = w'.tidied) ∧
      ∀ all w'', Firings fire w all w'' → w''.Idle ∨ most.toNat ≤ all.length →
        calls = all.take most.toNat := by
  intro run
  rcases drainAll_cases hfire most most.toNat w with
    ⟨calls, w', hdrains, hlt, hend⟩ | ⟨calls, w', hcalls, hlen, hend⟩
  · have hrun : run = (.ok (), w'.tidied) := hend
    rw [hrun]
    refine ⟨⟨fun _ => ⟨calls, w', hdrains, hlt⟩, fun _ => rfl⟩, ⟨nofun, ?_⟩, .inl rfl,
      calls, w', hdrains.1, .inr rfl, fun all w'' hall hend => ?_⟩
    · rintro ⟨more, w'', hmore, hlen⟩
      have hle := hdrains.length_le hmore
      omega
    · have hle := hdrains.length_le hall
      have hsame : calls.length = all.length := by
        rcases hend with hidle | hlong
        · exact le_antisymm (Drains.length_le ⟨hall, hidle⟩ hdrains.1) hle
        · omega
      rw [hdrains.1.eq_take hall hsame.le, hsame, List.take_length, List.take_of_length_le (by omega)]
  · have hrun : run = (.error (.failure (.stillPending most)), w') := hend
    rw [hrun]
    refine ⟨⟨nofun, ?_⟩, ⟨fun _ => ⟨calls, w', hcalls, hlen⟩, fun _ => rfl⟩, .inr rfl,
      calls, w', hcalls, .inl rfl, fun all w'' hall hend => ?_⟩
    · rintro ⟨all, w'', hall, hlt⟩
      have hle := hall.length_le hcalls
      omega
    · rw [← hlen]
      refine hcalls.eq_take hall ?_
      rcases hend with hidle | hlong
      · exact Drains.length_le ⟨hall, hidle⟩ hcalls
      · omega

/-- Calls that put one another on the clock, of which the first also lets go of a call: three fire, so
a limit of four is enough, and a limit of three is not. -/
theorem idles_within_limit_chain :
    let fire : Fire (Clock ℤ ℕ) ℕ ℤ ℕ := fun t => .change fun w =>
      ⟨match t.call with
        | 0 => w.clock
        | n + 1 => ((w.clock.disarm 1).arm 10 n).2, w.rest + 1⟩
    let w : Timed (Clock ℤ ℕ) ℕ := ⟨(((⟨0, [], 0, true, #[]⟩ : Clock ℤ ℕ).arm 5 2).2.arm 7 9).2, 0⟩
    (∀ t w, (fire t w).1 = .ok ()) ∧
      (runUntilIdle fire 4 w).1 = .ok () ∧ (∃ calls w', Drains fire w calls w' ∧ calls.length < 4) ∧
      (runUntilIdle fire 3 w).1 = .error (.failure (.stillPending 3)) ∧
      ∃ calls w', Firings fire w calls w' ∧ calls.length = 3 := by
  intro fire w
  have hfire : ∀ t w, (fire t w).1 = .ok () := fun _ _ => rfl
  have hfour : (runUntilIdle fire 4 w).1 = .ok () := rfl
  have hthree : (runUntilIdle fire 3 w).1 = .error (.failure (.stillPending 3)) := rfl
  exact ⟨hfire, hfour, (idles_within_limit hfire 4 w).1.mp hfour, hthree,
    (idles_within_limit hfire 3 w).2.1.mp hthree⟩

/-- With one call on the clock and a limit of one, the drain takes one firing and leaves nothing
pending. The run fails all the same. -/
theorem fails_though_idle :
    let fire : Fire (Clock ℤ Unit) Unit ℤ Unit := fun _ => pure ()
    let w : Timed (Clock ℤ Unit) Unit := ⟨((⟨0, [], 0, true, #[]⟩ : Clock ℤ Unit).arm 5 ()).2, ()⟩
    (∃ call w', Drains fire w [call] w' ∧ w'.clock.pending = 0) ∧
      (runUntilIdle fire 1 w).1 = .error (.failure (.stillPending 1)) := by
  intro fire w
  refine ⟨⟨_, _, ⟨.call rfl rfl (.rest _), ?_⟩, rfl⟩, rfl⟩
  exact (Clock.popDue_none_iff rfl).mpr rfl

end Timed
end TunnelView
