import Mathlib.Data.List.Basic
import Mathlib.Order.Nat
import TunnelView.Slot

/-!
# Which call of a slot is current

Where a clock keeps all calls and may fire any of them at any time, what was done decides which
firing counts: a call is current if it was the last to be put into its slot, was not taken out since,
and has not run. A history in which calls run only while they are current has at most one current
call for each slot.

Key definitions: `Slots.Deed`, `Slots.IsCurrent`, `Slots.current?`, `Slots.Sound`.
Key theorems: `Slots.Sound.isCurrent_iff`, `Slots.Sound.runs_current`, `Slots.Sound.runs_once`.
-/

namespace TunnelView.Slots

/-- What is done with slots: call `k` is put into slot `i`, the slot is emptied, call `k` runs. -/
inductive Deed where
  | schedules (i k : ℕ)
  | cancels (i : ℕ)
  | runs (i k : ℕ)
deriving DecidableEq, Repr

/-- Whether a deed ends the time of call `k` in slot `i`. -/
def Deed.Ends (i k : ℕ) : Deed → Prop
  | .schedules j _ => j = i
  | .cancels j => j = i
  | .runs _ k' => k' = k

/-- The call that a deed runs. -/
def Deed.run? : Deed → Option ℕ
  | .runs _ k => some k
  | _ => none

/-- Whether call `k` was the last to be put into slot `i`, and since then the slot was not emptied
and the call did not run. The newest deed is first. -/
def IsCurrent (i k : ℕ) (deeds : List Deed) : Prop :=
  ∃ after before, deeds = after ++ .schedules i k :: before ∧ ∀ d ∈ after, ¬d.Ends i k

/-- The call that a slot is left with. -/
def current? (i : ℕ) : List Deed → Option ℕ
  | [] => none
  | .schedules j k :: deeds => if j = i then some k else current? i deeds
  | .cancels j :: deeds => if j = i then none else current? i deeds
  | .runs j _ :: deeds => if j = i then none else current? i deeds

/-- A history in which every call is put into a slot only once, and runs only out of its slot. -/
def Sound : List Deed → Prop
  | [] => True
  | .schedules _ k :: deeds => (∀ j, .schedules j k ∉ deeds) ∧ Sound deeds
  | .cancels _ :: deeds => Sound deeds
  | .runs i k :: deeds => current? i deeds = some k ∧ Sound deeds

variable {i j k : ℕ} {d : Deed} {deeds : List Deed}

theorem isCurrent_cons :
    IsCurrent i k (d :: deeds) ↔ d = .schedules i k ∨ ¬d.Ends i k ∧ IsCurrent i k deeds := by
  constructor
  · rintro ⟨_ | ⟨first, after⟩, before, heq, hafter⟩
    · exact .inl (List.cons.inj heq).1
    · obtain ⟨rfl, hrest⟩ := List.cons.inj heq
      refine .inr ⟨hafter d List.mem_cons_self, after, before, hrest, fun e he => ?_⟩
      exact hafter e (List.mem_cons_of_mem d he)
  · rintro (rfl | ⟨hd, after, before, rfl, hafter⟩)
    · exact ⟨[], deeds, rfl, by simp⟩
    · refine ⟨d :: after, before, rfl, fun e he => ?_⟩
      rcases List.mem_cons.mp he with rfl | he
      · exact hd
      · exact hafter e he

namespace Sound

theorem tail (h : Sound (d :: deeds)) : Sound deeds := by
  cases d with
  | schedules => exact h.2
  | cancels => exact h
  | runs => exact h.2

/-- What a slot is left with was put into it. -/
theorem mem_of_current? (hcur : current? i deeds = some k) : .schedules i k ∈ deeds := by
  induction deeds with
  | nil => cases hcur
  | cons d deeds ih =>
    have hrest : current? i deeds = some k → .schedules i k ∈ d :: deeds :=
      fun h => List.mem_cons_of_mem d (ih h)
    cases d with
    | schedules j k' =>
      unfold current? at hcur
      by_cases hj : j = i
      · rw [if_pos hj] at hcur
        obtain rfl := Option.some.inj hcur
        exact hj ▸ List.mem_cons_self
      · rw [if_neg hj] at hcur
        exact hrest hcur
    | cancels j =>
      unfold current? at hcur
      by_cases hj : j = i
      · rw [if_pos hj] at hcur
        cases hcur
      · rw [if_neg hj] at hcur
        exact hrest hcur
    | runs j k' =>
      unfold current? at hcur
      by_cases hj : j = i
      · rw [if_pos hj] at hcur
        cases hcur
      · rw [if_neg hj] at hcur
        exact hrest hcur

/-- A call is put into one slot only. -/
theorem slot_unique (h : Sound deeds) (hi : .schedules i k ∈ deeds) (hj : .schedules j k ∈ deeds) :
    i = j := by
  induction deeds with
  | nil => cases hi
  | cons d deeds ih =>
    rcases List.mem_cons.mp hi with rfl | hi'
    · rcases List.mem_cons.mp hj with heq | hj'
      · cases heq
        rfl
      · exact absurd hj' (h.1 j)
    · rcases List.mem_cons.mp hj with rfl | hj'
      · exact absurd hi' (h.1 i)
      · exact ih h.tail hi' hj'

/-- **The call that a slot is left with is the current one**, by induction on the deeds. -/
theorem isCurrent_iff (h : Sound deeds) : IsCurrent i k deeds ↔ current? i deeds = some k := by
  induction deeds with
  | nil => simp [IsCurrent, current?]
  | cons d deeds ih =>
    rw [isCurrent_cons, ih h.tail]
    cases d with
    | schedules j k' =>
      rw [current?, Deed.Ends]
      by_cases hj : j = i
      · simp [hj]
      · simp [hj]
    | cancels j =>
      rw [current?, Deed.Ends]
      by_cases hj : j = i
      · simp [hj]
      · simp [hj]
    | runs j k' =>
      rw [current?, Deed.Ends]
      by_cases hj : j = i
      · -- what runs is what the slot was left with
        obtain ⟨hcur, -⟩ := h
        rw [hj] at hcur
        simp [hj, hcur]
      · have hother : current? i deeds = some k → k' ≠ k := by
          rintro hcur rfl
          exact hj (h.2.slot_unique (mem_of_current? h.1) (mem_of_current? hcur))
        simp only [reduceCtorEq, false_or, hj, if_false]
        exact ⟨fun hcur => hcur.2, fun hcur => ⟨hother hcur, hcur⟩⟩

theorem of_append {after before : List Deed} (h : Sound (after ++ before)) : Sound before := by
  induction after with
  | nil => exact h
  | cons d after ih => exact ih h.tail

/-- Calls run only while they are current. -/
theorem runs_current {after before : List Deed} (h : Sound (after ++ .runs i k :: before)) :
    IsCurrent i k before :=
  h.of_append.tail.isCurrent_iff.mpr h.of_append.1

theorem mem_of_run (h : Sound deeds) (hrun : .runs i k ∈ deeds) : .schedules i k ∈ deeds := by
  obtain ⟨after, before, rfl⟩ := List.append_of_mem hrun
  have hmem := mem_of_current? h.of_append.1
  exact List.mem_append_right after (List.mem_cons_of_mem _ hmem)

/-- A call that has run is not current any more, in whichever slot. -/
theorem not_current_of_run (h : Sound deeds) (hrun : .runs i k ∈ deeds) : ¬IsCurrent j k deeds := by
  induction deeds with
  | nil => cases hrun
  | cons d deeds ih =>
    rw [isCurrent_cons]
    rintro (rfl | ⟨hends, hcur⟩)
    · rcases List.mem_cons.mp hrun with heq | hrun
      · cases heq
      · exact h.1 i (h.tail.mem_of_run hrun)
    · rcases List.mem_cons.mp hrun with rfl | hrun
      · exact hends rfl
      · exact ih h.tail hrun hcur

/-- **No call runs twice.** -/
theorem runs_once (h : Sound deeds) (k : ℕ) : (deeds.filter (·.run? == some k)).length ≤ 1 := by
  induction deeds with
  | nil => simp
  | cons d deeds ih =>
    by_cases hd : d.run? = some k
    · cases d with
      | schedules => cases hd
      | cancels => cases hd
      | runs i k' =>
        obtain rfl : k' = k := Option.some.inj hd
        have hcur := h.tail.isCurrent_iff.mpr h.1
        have hnone : deeds.filter (·.run? == some k') = [] := by
          refine List.filter_eq_nil_iff.mpr fun e he hrun => ?_
          cases e with
          | schedules => cases hrun
          | cancels => cases hrun
          | runs j k =>
            obtain rfl : k = k' := by simpa [Deed.run?] using hrun
            exact h.tail.not_current_of_run he hcur
        rw [List.filter_cons_of_pos (by simp [Deed.run?]), hnone]
        simp
    · rw [List.filter_cons_of_neg (by simpa using hd)]
      exact ih h.tail

end Sound

end TunnelView.Slots
