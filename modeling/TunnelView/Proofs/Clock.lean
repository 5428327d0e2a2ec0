import Mathlib.Data.List.Perm.Basic
import Mathlib.Order.MinMax
import TunnelView.Proofs.Heap
import TunnelView.Slot

/-!
# What a clock does with calls of any kind

A call is put among the others without a change to them. A call that falls due was on the clock, and
the clock is left without it; without one that falls due the clock is only tidied. Serial numbers
only grow, so a call that is gone from the clock never comes back (`Clock.Later`). A slot that is
emptied takes its own call off the clock, and one into which a call is put adds that call alone.

Key definitions: `Clock.Later`, `Clock.Gone`.
Key theorems: `Clock.insert_perm`, `Clock.tidied_tidied`, `Clock.popDue_some`,
`Clock.popDue_of_none`, `eraseP_serial`, `Slot.mem_of_schedule`.
-/

namespace TunnelView

variable {τ κ : Type}

theorem later_eq_max [LinearOrder τ] (a b : τ) : later a b = max a b := by
  unfold later
  split
  · exact (max_eq_right (le_of_lt ‹_›)).symm
  · exact (max_eq_left (not_lt.mp ‹_›)).symm

theorem Clock.insert_perm [LT τ] [DecidableLT τ] (t : Timer τ κ) (ts : List (Timer τ κ)) :
    (Clock.insert t ts).Perm (t :: ts) := by
  induction ts with
  | nil => exact .refl _
  | cons u ts ih =>
    rw [Clock.insert]
    split
    · exact .refl _
    · exact (ih.cons u).trans (.swap t u ts)

theorem Clock.mem_insert [LT τ] [DecidableLT τ] {t u : Timer τ κ} {ts : List (Timer τ κ)} :
    u ∈ Clock.insert t ts ↔ u = t ∨ u ∈ ts :=
  (insert_perm t ts).mem_iff.trans List.mem_cons

/-- Serial numbers that occur once make taking off the first the same as taking off all. -/
theorem eraseP_serial {ts : List (Timer τ κ)} (i : ℕ) (h : (ts.map Timer.serial).Nodup) :
    ts.eraseP (·.serial == i) = ts.filter (·.serial != i) := by
  induction ts with
  | nil => rfl
  | cons t ts ih =>
    obtain ⟨ht, hts⟩ := List.nodup_cons.mp h
    by_cases hi : t.serial = i
    · have hrest : ts.filter (·.serial != i) = ts := by
        refine List.filter_eq_self.mpr fun u hu => ?_
        have hne : u.serial ≠ i := by
          rintro rfl
          exact ht (hi ▸ List.mem_map_of_mem hu)
        simpa using hne
      rw [List.eraseP_cons_of_pos (by simpa using hi), List.filter_cons_of_neg (by simpa using hi),
        hrest]
    · rw [List.eraseP_cons_of_neg (by simpa using hi), List.filter_cons_of_pos (by simpa using hi),
        ih hts]

/-! ### Tidying -/

namespace Clock

variable [LT τ] [DecidableLT τ] [LE τ] [DecidableLE τ] {c clock : Clock τ κ} {limit : Option τ}
  {t : Timer τ κ}

/-- With a try for each item, what is left is empty or has a wanted top. -/
theorem dropTops_top (wanted : ℕ → Bool) {tries : ℕ} {heap : Array (Due τ)}
    (h : heap.size ≤ tries) : ∀ due ∈ (dropTops wanted tries heap)[0]?, wanted due.serial := by
  induction tries generalizing heap with
  | zero =>
    intro due hdue
    have hpos : 0 < heap.size := Array.size_pos_of_mem (Array.mem_of_getElem? hdue)
    omega
  | succ tries ih =>
    rw [dropTops]
    cases htop : heap[0]? with
    | none => simp [htop]
    | some due =>
      dsimp only
      by_cases hwanted : wanted due.serial
      · rw [if_pos hwanted, htop]
        intro u hu
        obtain rfl := Option.some.inj hu
        exact hwanted
      · rw [if_neg hwanted]
        refine ih ?_
        rw [Heap.size_pop]
        omega

theorem dropTops_of_top (wanted : ℕ → Bool) (tries : ℕ) {heap : Array (Due τ)}
    (h : ∀ due ∈ heap[0]?, wanted due.serial) : dropTops wanted tries heap = heap := by
  cases tries with
  | zero => rfl
  | succ tries =>
    rw [dropTops]
    cases htop : heap[0]? with
    | none => rfl
    | some due => exact if_pos (h due htop)

/-- Once is enough to tidy a clock. -/
@[simp]
theorem tidied_tidied (c : Clock τ κ) : c.tidied.tidied = c.tidied :=
  congrArg (fun heap => { c with heap }) (dropTops_of_top _ _ (dropTops_top _ (Nat.le_refl _)))

theorem popDue_tidied (limit : Option τ) (c : Clock τ κ) :
    c.tidied.popDue limit = c.popDue limit := by
  simp only [Clock.popDue, tidied_tidied]

/-! ### What falls due -/

/-- A call that falls due is the first, and not past the limit. -/
theorem popDue_fired (h : c.popDue limit = (some t, clock)) :
    c.tidied.first? = some t ∧ clock = c.tidied.fired t ∧ ∀ time ∈ limit, ¬time < t.deadline := by
  simp only [Clock.popDue] at h
  cases hfirst : c.tidied.first? with
  | none =>
    rw [hfirst] at h
    cases h
  | some u =>
    simp only [hfirst] at h
    split at h
    · cases h
    · rename_i hlimit
      obtain ⟨hu, rfl⟩ := Prod.mk.inj h
      obtain rfl := Option.some.inj hu
      refine ⟨rfl, rfl, fun time htime => ?_⟩
      obtain rfl := Option.mem_def.mp htime
      simpa using hlimit

/-- The call that falls due is one of those on the clock, which is left without it. -/
theorem popDue_some (h : c.popDue limit = (some t, clock)) : t ∈ c.timers ∧ clock.next = c.next ∧
    clock.timers = c.timers.eraseP (·.serial == t.serial) := by
  obtain ⟨hfirst, rfl, -⟩ := popDue_fired h
  refine ⟨?_, rfl, rfl⟩
  unfold Clock.first? at hfirst
  split at hfirst
  · exact List.mem_of_mem_head? hfirst
  · obtain ⟨due, -, hdue⟩ := Option.bind_eq_some_iff.mp hfirst
    exact List.mem_of_find?_eq_some hdue

theorem mem_of_popDue {u : Timer τ κ} (h : c.popDue limit = (some t, clock))
    (hu : u ∈ clock.timers) : u ∈ c.timers := by
  rw [(popDue_some h).2.2] at hu
  exact List.mem_of_mem_eraseP hu

/-- Without a call that is due, a look at the clock only tidies it. -/
theorem popDue_of_none (h : c.popDue limit = (none, clock)) : clock = c.tidied := by
  simp only [Clock.popDue] at h
  split at h
  · exact (congrArg Prod.snd h).symm
  · split at h
    · exact (congrArg Prod.snd h).symm
    · cases h

theorem popDue_next (limit : Option τ) (c : Clock τ κ) : (c.popDue limit).2.next = c.next := by
  simp only [Clock.popDue]
  split
  · rfl
  · split <;> rfl

/-- As long as every deadline has its place among the times, the first call falls due. -/
theorem popDue_ordered (hord : c.ordered = true) (hpop : c.popDue limit = (some t, clock)) :
    (∃ rest, c.timers = t :: rest) ∧ clock = c.tidied.fired t := by
  obtain ⟨hfirst, rfl, -⟩ := popDue_fired hpop
  rw [show c.tidied.first? = c.timers.head? from if_pos hord] at hfirst
  exact ⟨⟨c.timers.tail, List.eq_cons_of_mem_head? hfirst⟩, rfl⟩

/-- What falls due by a limit is what falls due first. -/
theorem popDue_eq (h : (c.popDue limit).1 = some t) : c.popDue limit = c.popDue none := by
  simp only [Clock.popDue] at h ⊢
  cases hf : c.tidied.first? with
  | none => rfl
  | some u =>
    rw [hf] at h
    simp only at h ⊢
    split at h
    · contradiction
    · rw [if_neg ‹_›]
      rfl

end Clock

/-! ### Serial numbers only grow -/

theorem Clock.fresh_arm [Zero τ] [Add τ] [LT τ] [DecidableLT τ] [LE τ] [DecidableLE τ]
    {c : Clock τ κ} (h : ∀ t ∈ c.timers, t.serial < c.next) (delay : τ) (call : κ) :
    ∀ t ∈ (c.arm delay call).2.timers, t.serial < (c.arm delay call).2.next := by
  intro t ht
  rcases Clock.mem_insert.mp ht with rfl | ht
  · exact Nat.lt_succ_self c.next
  · exact Nat.lt_succ_of_lt (h t ht)

section Later

variable {c c₁ c₂ : Clock τ κ}

/-- A clock as it may be later: what has come to it has a new serial number. -/
structure Clock.Later (c c' : Clock τ κ) : Prop where
  next : c.next ≤ c'.next
  timers : ∀ t ∈ c'.timers, t ∈ c.timers ∨ c.next ≤ t.serial

/-- Whether a serial number was given to a call that is no longer to come. -/
def Clock.Gone (serial : ℕ) (c : Clock τ κ) : Prop :=
  serial < c.next ∧ ∀ t ∈ c.timers, t.serial ≠ serial

namespace Clock.Later

theorem refl (c : Clock τ κ) : c.Later c := ⟨le_rfl, fun _ h => .inl h⟩

theorem trans (h₁ : c.Later c₁) (h₂ : c₁.Later c₂) : c.Later c₂ where
  next := h₁.next.trans h₂.next
  timers t ht := by
    rcases h₂.timers t ht with h | h
    · exact h₁.timers t h
    · exact .inr (h₁.next.trans h)

theorem disarm (serial : ℕ) (c : Clock τ κ) : c.Later (c.disarm serial) :=
  ⟨le_rfl, fun _ h => .inl (List.mem_filter.mp h).1⟩

/-- A call that is gone stays gone. -/
theorem gone {serial : ℕ} (h : c.Later c₁) (hg : c.Gone serial) : c₁.Gone serial := by
  refine ⟨hg.1.trans_le h.next, fun t ht => ?_⟩
  rcases h.timers t ht with h | h
  · exact hg.2 t h
  · exact (hg.1.trans_le h).ne'

variable [LinearOrder τ]

theorem arm [Zero τ] [Add τ] (delay : τ) (call : κ) (c : Clock τ κ) :
    c.Later (c.arm delay call).2 where
  next := Nat.le_succ _
  timers t ht := by
    rcases Clock.mem_insert.mp ht with rfl | ht
    · exact .inr le_rfl
    · exact .inl ht

theorem popDue {limit : Option τ} {t? : Option (Timer τ κ)} (h : c.popDue limit = (t?, c₁)) :
    c.Later c₁ := by
  cases t? with
  | none =>
    obtain rfl := Clock.popDue_of_none h
    exact ⟨le_rfl, fun _ h => .inl h⟩
  | some t =>
    obtain ⟨-, hnext, -⟩ := Clock.popDue_some h
    exact ⟨hnext.ge, fun _ hu => .inl (Clock.mem_of_popDue h hu)⟩

end Clock.Later
end Later

/-! ### Slots -/

namespace Slot

variable [Zero τ] [Add τ] [LT τ] [DecidableLT τ] [LE τ] [DecidableLE τ] {slot : Slot}
  {c : Clock τ κ} {t : Timer τ κ}

theorem cancel_of_empty (h : slot.armed = none) (c : Clock τ κ) :
    slot.cancel c = (slot.released, c) := by
  rw [Slot.cancel, h]

theorem cancel_of_armed {serial : ℕ} (h : slot.armed = some serial) (c : Clock τ κ) :
    slot.cancel c = (slot.released, c.disarm serial) := by
  rw [Slot.cancel, h]
  rfl

theorem cancel_now (slot : Slot) (c : Clock τ κ) : (slot.cancel c).2.now = c.now := by
  cases h : slot.armed with
  | none => rw [cancel_of_empty h]
  | some serial =>
    rw [cancel_of_armed h]
    rfl

theorem mem_of_cancel (h : t ∈ (slot.cancel c).2.timers) : t ∈ c.timers := by
  cases ha : slot.armed with
  | none => rwa [cancel_of_empty ha] at h
  | some serial =>
    rw [cancel_of_armed ha] at h
    exact List.mem_of_mem_filter h

theorem mem_schedule {delay : τ} {call : κ} : t ∈ (slot.schedule delay call c).2.timers ↔
    t = ⟨c.now + delayed delay, (slot.cancel c).2.next, call⟩ ∨ t ∈ (slot.cancel c).2.timers := by
  rw [← cancel_now slot c]
  exact Clock.mem_insert

theorem mem_of_schedule {delay : τ} {call : κ} (h : t ∈ (slot.schedule delay call c).2.timers) :
    t.call = call ∨ t ∈ c.timers := by
  rcases mem_schedule.mp h with rfl | h
  · exact .inl rfl
  · exact .inr (mem_of_cancel h)

/-- A slot into which a call is put holds a call on the clock, due after the delay. -/
theorem schedule_armed (delay : τ) (call : κ) (slot : Slot) (c : Clock τ κ) :
    ∃ t ∈ (slot.schedule delay call c).2.timers,
      (slot.schedule delay call c).1.armed = some t.serial ∧
      t.call = call ∧ t.deadline = c.now + delayed delay :=
  ⟨_, mem_schedule.mpr (.inl rfl), rfl, rfl, rfl⟩

theorem cancel_later (slot : Slot) (c : Clock τ κ) : c.Later (slot.cancel c).2 := by
  cases h : slot.armed with
  | none =>
    rw [cancel_of_empty h]
    exact .refl c
  | some serial =>
    rw [cancel_of_armed h]
    exact .disarm serial c

end Slot

end TunnelView
