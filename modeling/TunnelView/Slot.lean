import TunnelView.Clock

/-!
# A slot for one deferred call

A slot holds at most one call on a clock. Putting in another lets the first one go. A clock may
still fire a call that was let go, so a slot counts generations: one ends when what it holds is let
go, and one begins with each call, which takes its number along. A firing counts only if the slot
holds a call and is still in the generation that the firing call took along; the slot is emptied
before the call runs, so the call may fill it again.

No two calls take the same number along, so a firing counts just if the slot holds that very call
(`Slot.claim?_eq`).

Key definitions: `Slot`, `Slot.cancel`, `Slot.schedule`, `Slot.claim?`.
Key theorems: `Slot.armed_iff`, `Slot.claim?_eq`.
-/

namespace TunnelView

/-- A slot, with what is known of the calls that were put in. -/
structure Slot where
  /-- The serial number of the call that is held. -/
  armed : Option Nat
  generation : Nat
  /-- The generation that each call took along, by its serial number, the newest first. -/
  taken : List (Nat × Nat)
  taken_le : ∀ call ∈ taken, call.2 ≤ generation
  /-- The call that is held is the newest, and the only one of its generation. -/
  held : ∀ serial, armed = some serial →
    ∃ older, taken = (serial, generation) :: older ∧ ∀ call ∈ older, call.2 < generation

/-- A slot that nothing was put into. -/
instance : EmptyCollection Slot where
  emptyCollection :=
    { armed := none, generation := 0, taken := [], taken_le := by simp, held := by simp }

namespace Slot

/-- Whether a call is waiting. -/
def pending (s : Slot) : Bool := s.armed.isSome

/-- The slot without its call, in the same generation. -/
def emptied (s : Slot) : Slot :=
  { s with armed := none, held := by simp }

/-- The slot without its call, in a new generation. -/
def released (s : Slot) : Slot where
  armed := none
  generation := s.generation + 1
  taken := s.taken
  taken_le call h := Nat.le_succ_of_le (s.taken_le call h)
  held := by simp

/-- The slot with a call that takes the number of a new generation along. -/
def take (serial : Nat) (s : Slot) : Slot where
  armed := some serial
  generation := s.generation + 1
  taken := (serial, s.generation + 1) :: s.taken
  taken_le := List.forall_mem_cons.mpr
    ⟨Nat.le_refl _, fun call h => Nat.le_succ_of_le (s.taken_le call h)⟩
  held _ h := ⟨s.taken, by rw [Option.some.inj h],
    fun call h => Nat.lt_succ_of_le (s.taken_le call h)⟩

section Clocks

variable {C τ κ : Type} [Timekeeper C τ κ]

/-- Lets the call go, if there is one. -/
def cancel (s : Slot) (c : C) : Slot × C :=
  (s.released,
    match s.armed with
    | none => c
    | some serial => Timekeeper.disarm serial c)

/-- Puts a call in, in place of what was there. -/
def schedule (delay : τ) (call : κ) (s : Slot) (c : C) : Slot × C :=
  let (s, c) := s.cancel c
  let (serial, c) := Timekeeper.arm delay call c
  (s.take serial, c)

end Clocks

/-- The slot after the firing of a call, if it is of this generation and the slot holds a call. -/
def claim? (serial : Nat) (s : Slot) : Option Slot :=
  match s.taken.lookup serial with
  | none => none
  | some generation =>
    if generation = s.generation ∧ s.pending then some s.emptied else none

/-! ### Generations tell calls apart -/

variable {s : Slot} {serial generation : Nat}

/-- The call that a slot holds took along the generation of the slot. -/
theorem lookup_taken (h : s.armed = some serial) :
    s.taken.lookup serial = some s.generation := by
  obtain ⟨older, htaken, -⟩ := s.held serial h
  simp [htaken]

/-- It is the only one that did. -/
theorem eq_of_lookup_taken {current : Nat} (h : s.armed = some current)
    (hserial : s.taken.lookup serial = some s.generation) : serial = current := by
  obtain ⟨older, htaken, hlt⟩ := s.held current h
  rw [htaken, List.lookup_cons] at hserial
  split at hserial
  · rename_i hsame
    exact beq_iff_eq.mp hsame
  · -- the others took earlier ones along
    obtain ⟨_, _, holder, -⟩ := List.lookup_eq_some_iff.mp hserial
    exact absurd (hlt (serial, s.generation) (by simp [holder])) (Nat.lt_irrefl _)

/-- By the generation that a call took along a slot tells whether it holds that call. -/
theorem armed_iff (h : s.taken.lookup serial = some generation) :
    s.armed = some serial ↔ generation = s.generation ∧ s.pending := by
  constructor
  · intro harmed
    rw [lookup_taken harmed] at h
    exact ⟨(Option.some.inj h).symm, by rw [pending, harmed]; rfl⟩
  · rintro ⟨rfl, hpending⟩
    obtain ⟨current, harmed⟩ := Option.isSome_iff_exists.mp hpending
    rw [harmed, eq_of_lookup_taken harmed h]

/-- **A firing counts just if the slot holds the call that fires.** -/
theorem claim?_eq (serial : Nat) (s : Slot) :
    s.claim? serial = if s.armed = some serial then some s.emptied else none := by
  unfold claim?
  cases h : s.taken.lookup serial with
  | none =>
    have hnot : s.armed ≠ some serial := fun harmed => by
      rw [lookup_taken harmed] at h
      contradiction
    rw [if_neg hnot]
  | some generation => simp only [armed_iff h]

end Slot
end TunnelView
