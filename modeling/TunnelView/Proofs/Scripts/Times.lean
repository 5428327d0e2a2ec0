import TunnelView.Proofs.Number.Place
import TunnelView.Proofs.Scripts

/-!
# Events in the order of their times

If all times are defined, arranging events puts them into the order of their times, and leaves those
of one time as they stand. There is just one such order: events in order are known from the events of
each time. If a time is undefined, it hides the order, for nothing is before it or behind it: events
stay as they stand if only none is before the one right in front of it.

Key definitions: `Script.Event.isAt`, `Script.Event.upTo`.
Key theorems: `Script.arrange_ordered`, `Script.arrange_stable`, `Script.eq_of_filter_eq`,
`Order.sort_of_chain`.
-/

namespace TunnelView

namespace Order

variable {α : Type} {lt : α → α → Bool} {a : α} {xs : List α}

theorem risingRun_of_chain (h : (a :: xs).IsChain fun a b => lt b a = false) :
    risingRun lt a xs = (xs, []) := by
  induction xs generalizing a with
  | nil => rfl
  | cons b xs ih =>
    obtain ⟨hb, hrest⟩ := List.isChain_cons_cons.mp h
    simp [risingRun, hb, ih hrest]

theorem firstRun_of_chain (h : xs.IsChain fun a b => lt b a = false) :
    firstRun lt xs = (xs, []) := by
  cases xs with
  | nil => rfl
  | cons a xs =>
    cases xs with
    | nil => rfl
    | cons b xs =>
      obtain ⟨hb, hrest⟩ := List.isChain_cons_cons.mp h
      simp [firstRun, hb, risingRun_of_chain hrest]

/-- What is nowhere below what is in front of it stays as it stands. -/
theorem sort_of_chain (h : xs.IsChain fun a b => lt b a = false) : sort lt xs = xs := by
  simp [sort, nextRun, firstRun_of_chain h, mergeRest, mergeAll]

end Order

namespace Script

variable {a b c e : Event} {events events' : List Event} {t : Number}

/-- Whether an event comes at a time. -/
def Event.isAt (t : Number) (e : Event) : Bool := e.time ≤ t && t ≤ e.time

/-- Whether an event may stand before another: if it is not later, or has no place. -/
def Event.upTo (a b : Event) : Bool := !a.isPlaced || a.time ≤ b.time

theorem Event.isPlaced_iff : e.isPlaced = true ↔ e.time ≤ e.time := decide_eq_true_iff

theorem Event.isAt_iff : e.isAt t = true ↔ e.time ≤ t ∧ t ≤ e.time := by
  simp [isAt]

theorem Event.upTo_iff (ha : a.isPlaced) : a.upTo b = true ↔ a.time ≤ b.time := by
  simp [upTo, ha]

theorem Event.upTo_trans (a b c : Event) (hab : a.upTo b) (hbc : b.upTo c) : a.upTo c := by
  by_cases ha : a.isPlaced
  · rw [upTo_iff ha] at hab ⊢
    have hb : b.isPlaced := Event.isPlaced_iff.mpr (Number.le_self_of_le hab).2
    rw [upTo_iff hb] at hbc
    exact Number.le_trans hab hbc
  · simp [upTo, ha]

theorem Event.upTo_total (a b : Event) : (a.upTo b || b.upTo a) = true := by
  by_cases ha : a.isPlaced
  · by_cases hb : b.isPlaced
    · rw [Bool.or_eq_true, upTo_iff ha, upTo_iff hb]
      exact Number.le_total (isPlaced_iff.mp ha) (isPlaced_iff.mp hb)
    · simp [upTo, hb]
  · simp [upTo, ha]

/-- Events that all have a place are sorted by an order of all events. -/
theorem arrange_eq (h : ∀ e ∈ events, e.isPlaced) : arrange events = events.mergeSort Event.upTo := by
  have hsame : ∀ a ∈ events, ∀ b ∈ events, (!before b a) = Event.upTo (id a) (id b) := by
    intro a ha b hb
    have hle := Number.le_iff_not_lt (Event.isPlaced_iff.mp (h a ha)) (Event.isPlaced_iff.mp (h b hb))
    rw [Bool.eq_iff_iff, id, id, Event.upTo_iff (h a ha), hle]
    simp [before]
  have hsort := List.map_mergeSort hsame
  rw [List.map_id, List.map_id] at hsort
  rw [arrange, if_pos (List.all_eq_true.mpr h), hsort]

/-- Events that all have a place get into the order of their times. -/
theorem arrange_ordered (h : ∀ e ∈ events, e.isPlaced) :
    (arrange events).Pairwise fun a b => a.time ≤ b.time := by
  have hsorted : (events.mergeSort Event.upTo).Pairwise fun a b => a.upTo b = true :=
    List.pairwise_mergeSort Event.upTo_trans Event.upTo_total events
  rw [arrange_eq h]
  refine hsorted.imp_of_mem fun ha _ hle => ?_
  exact (Event.upTo_iff (h _ (List.mem_mergeSort.mp ha))).mp hle

/-- Events of one time stay as they stand. -/
theorem arrange_stable (h : ∀ e ∈ events, e.isPlaced) (t : Number) :
    (arrange events).filter (Event.isAt t) = events.filter (Event.isAt t) := by
  have hpairs : (events.filter (Event.isAt t)).Pairwise fun a b => a.upTo b = true := by
    refine List.pairwise_of_forall_mem_list fun a ha b hb => ?_
    obtain ⟨hmem, hat⟩ := List.mem_filter.mp ha
    have hbt := (List.mem_filter.mp hb).2
    rw [Event.upTo_iff (h a hmem)]
    exact Number.le_trans (Event.isAt_iff.mp hat).1 (Event.isAt_iff.mp hbt).2
  have hsub : (events.filter (Event.isAt t)).Sublist (arrange events) := by
    rw [arrange_eq h]
    exact List.sublist_mergeSort Event.upTo_trans Event.upTo_total hpairs
      List.filter_sublist
  have hfiltered := hsub.filter (Event.isAt t)
  rw [List.filter_filter] at hfiltered
  simp only [Bool.and_self] at hfiltered
  exact (hfiltered.eq_of_length ((arrange_perm events).filter _).length_eq.symm).symm

theorem Event.isAt_self (he : e.isPlaced) : e.isAt e.time = true :=
  isAt_iff.mpr ⟨isPlaced_iff.mp he, isPlaced_iff.mp he⟩

theorem mem_of_filter_eq (h : ∀ t, events.filter (Event.isAt t) = events'.filter (Event.isAt t))
    (he : e ∈ events) (hplaced : e.isPlaced) : e ∈ events' := by
  have hmem : e ∈ events.filter (Event.isAt e.time) :=
    List.mem_filter.mpr ⟨he, Event.isAt_self hplaced⟩
  rw [h] at hmem
  exact (List.mem_filter.mp hmem).1

/-- Nothing in a list in order is before its head. -/
theorem head_le (hordered : (a :: events).Pairwise fun a b => a.time ≤ b.time) (ha : a.isPlaced)
    (he : e ∈ a :: events) : a.time ≤ e.time := by
  rcases List.mem_cons.mp he with rfl | he
  · exact Event.isPlaced_iff.mp ha
  · exact (List.pairwise_cons.mp hordered).1 e he

/-- Events in order are known from the events of each time. -/
theorem eq_of_filter_eq (hplaced : ∀ e ∈ events, e.isPlaced) (hplaced' : ∀ e ∈ events', e.isPlaced)
    (hordered : events.Pairwise fun a b => a.time ≤ b.time)
    (hordered' : events'.Pairwise fun a b => a.time ≤ b.time)
    (h : ∀ t, events.filter (Event.isAt t) = events'.filter (Event.isAt t)) : events = events' := by
  induction events generalizing events' with
  | nil =>
    cases events' with
    | nil => rfl
    | cons b events' =>
      have hb := mem_of_filter_eq (fun t => (h t).symm) (.head _) (hplaced' b (.head _))
      cases hb
  | cons a events ih =>
    cases events' with
    | nil =>
      have ha := mem_of_filter_eq h (.head _) (hplaced a (.head _))
      cases ha
    | cons b events' =>
      obtain ⟨ha, hrest⟩ := List.forall_mem_cons.mp hplaced
      obtain ⟨hb, hrest'⟩ := List.forall_mem_cons.mp hplaced'
      -- both heads come first, so they are of one time, and both lists begin with that time's events
      have hab : a.time ≤ b.time :=
        head_le hordered ha (mem_of_filter_eq (fun t => (h t).symm) (.head _) hb)
      have hba : b.time ≤ a.time := head_le hordered' hb (mem_of_filter_eq h (.head _) ha)
      have hheads := h a.time
      rw [List.filter_cons_of_pos (Event.isAt_self ha),
        List.filter_cons_of_pos (Event.isAt_iff.mpr ⟨hba, hab⟩)] at hheads
      obtain ⟨rfl, -⟩ := List.cons.inj hheads
      have htails : ∀ t, events.filter (Event.isAt t) = events'.filter (Event.isAt t) := by
        intro t
        have ht := h t
        by_cases hat : a.isAt t
        · rw [List.filter_cons_of_pos hat, List.filter_cons_of_pos hat] at ht
          exact (List.cons.inj ht).2
        · rwa [List.filter_cons_of_neg hat, List.filter_cons_of_neg hat] at ht
      rw [ih hrest hrest' (List.pairwise_cons.mp hordered).2 (List.pairwise_cons.mp hordered').2
        htails]

end Script
end TunnelView
