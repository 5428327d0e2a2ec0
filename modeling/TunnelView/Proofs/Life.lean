import Mathlib.Algebra.Order.Group.Defs
import Mathlib.Data.List.Nodup
import TunnelView.Proofs.Clock

/-!
# The life of a clock

Whatever code does with a clock, one thing happens after another: a call is put on it or let go of,
one falls due, or the clock moves on past nothing. Over all of that, calls fire in the order of their
deadlines, and those of one deadline in the order in which they came; each fires at its own deadline;
and no call is ever overdue. What carries this is that every deadline on the clock is still to come
and stands behind all that fired before.

The calls are also kept as a heap, where those that were let go of stay until they come to its top.
Where deadlines are ordered, the heap names the same call as the list of what is still to come.

Key definitions: `Timer.Before`, `Clock.Tick`, `Clock.Life`, `Clock.Stacked`, `Clock.Punctual`.
Key theorems: `Clock.Tick.punctual`, `Clock.Life.punctual`, `Clock.Life.ne_of_gone`,
`Clock.Punctual.first_of_heap`.
-/

namespace TunnelView

variable {τ κ : Type} [LinearOrder τ]

/-- Whether a call falls due before another: at an earlier deadline, or at the same one with an
earlier place. -/
def Timer.Before (t u : Timer τ κ) : Prop :=
  t.deadline < u.deadline ∨ t.deadline = u.deadline ∧ t.serial < u.serial

/-- The place of a call. -/
def Timer.due (t : Timer τ κ) : Due τ := ⟨t.deadline, t.serial⟩

theorem Timer.before_iff (t u : Timer τ κ) : t.Before u ↔ t.due.before u.due = true := by
  unfold Due.before Timer.due Timer.Before
  by_cases hsame : t.deadline = u.deadline
  · rw [if_pos ⟨hsame.le, hsame.ge⟩, decide_eq_true_iff]
    simp [hsame]
  · have hne : ¬(t.deadline ≤ u.deadline ∧ u.deadline ≤ t.deadline) := by
      rintro ⟨hle, hge⟩
      exact hsame (le_antisymm hle hge)
    rw [if_neg hne, decide_eq_true_iff]
    simp [hsame]

theorem Due.sorts : Heap.Sorts (Due.before : Due τ → Due τ → Bool) where
  asymm x y h := by
    unfold Due.before at h ⊢
    grind
  through x y z hyx hzy := by
    unfold Due.before at hyx hzy ⊢
    grind

namespace Clock

/-! ### What happens to a clock -/

/-- One thing that happens to a clock, and the call that fires by it, if one does. -/
inductive Tick [Zero τ] [Add τ] : Clock τ κ → Option (Timer τ κ) → Clock τ κ → Prop
  | arms (c : Clock τ κ) (delay : τ) (call : κ) : Tick c none (c.arm delay call).2
  | disarms (c : Clock τ κ) (serial : ℕ) : Tick c none (c.disarm serial)
  | tidies (c : Clock τ κ) : Tick c none c.tidied
  | fires {c c' : Clock τ κ} {limit : Option τ} {t : Timer τ κ} :
    c.popDue limit = (some t, c') → Tick c (some t) c'
  /-- The clock goes to a time by which nothing more is due. -/
  | moves {c : Clock τ κ} {time : τ} : c.popDue (some time) = (none, c) →
    Tick c none (c.moveTo time)

/-- A stretch of the life of a clock, with the calls that fire on it, the newest first. -/
inductive Life [Zero τ] [Add τ] (start : Clock τ κ) : List (Timer τ κ) → Clock τ κ → Prop
  | start : Life start [] start
  | tick {fired c t? c'} : Life start fired c → Tick c t? c' → Life start (t?.toList ++ fired) c'

/-! ### What falls due on an ordered clock -/

section Due

variable {c c' : Clock τ κ} {limit : Option τ} {t : Timer τ κ}

/-- With nothing due by a time, all that is still to come is past it. -/
theorem lt_of_popDue_none {time : τ} (hord : c.ordered = true)
    (hsorted : c.timers.Pairwise Timer.Before) (hpop : c.popDue (some time) = (none, c')) :
    ∀ u ∈ c.timers, time < u.deadline := by
  have hfirst : c.tidied.first? = c.timers.head? := if_pos hord
  simp only [Clock.popDue, hfirst] at hpop
  cases htimers : c.timers with
  | nil => simp
  | cons t rest =>
    rw [htimers] at hpop hsorted
    dsimp only [List.head?_cons] at hpop
    split at hpop
    · rename_i hlt
      have hhead : time < t.deadline := by simpa using hlt
      intro u hu
      rcases List.mem_cons.mp hu with rfl | hu
      · exact hhead
      · rcases (List.pairwise_cons.mp hsorted).1 u hu with hlater | ⟨hsame, -⟩
        · exact hhead.trans hlater
        · exact hhead.trans_eq hsame
    · cases hpop

end Due

/-- A new call goes behind all that are due before or with it, so the calls stay in their order. -/
theorem insert_sorted {t : Timer τ κ} {ts : List (Timer τ κ)} (hsorted : ts.Pairwise Timer.Before)
    (hnew : ∀ u ∈ ts, u.serial < t.serial) : (Clock.insert t ts).Pairwise Timer.Before := by
  induction ts with
  | nil => exact List.pairwise_singleton _ t
  | cons u ts ih =>
    obtain ⟨hu, hts⟩ := List.pairwise_cons.mp hsorted
    rw [Clock.insert]
    by_cases hlt : t.deadline < u.deadline
    · rw [if_pos hlt]
      refine List.pairwise_cons.mpr ⟨fun v hv => ?_, hsorted⟩
      rcases List.mem_cons.mp hv with rfl | hv
      · exact .inl hlt
      · rcases hu v hv with hlater | ⟨hsame, -⟩
        · exact .inl (hlt.trans hlater)
        · exact .inl (hlt.trans_eq hsame)
    · rw [if_neg hlt]
      refine List.pairwise_cons.mpr ⟨fun v hv => ?_, ?_⟩
      · rcases Clock.mem_insert.mp hv with rfl | hv
        · rcases (not_lt.mp hlt).lt_or_eq with hbefore | hsame
          · exact .inl hbefore
          · exact .inr ⟨hsame, hnew u List.mem_cons_self⟩
        · exact hu v hv
      · exact ih hts fun v hv => hnew v (List.mem_cons_of_mem u hv)

/-! ### The heap -/

/-- The heap of a clock holds the places of all calls that are still to come, and maybe of others
that came before. -/
structure Stacked (next : ℕ) (timers : List (Timer τ κ)) (heap : Array (Due τ)) : Prop where
  settled : Heap.Settled Due.before heap
  held : ∀ t ∈ timers, t.due ∈ heap.toList
  old : ∀ due ∈ heap.toList, due.serial < next
  nodup : (heap.toList.map Due.serial).Nodup

namespace Stacked

variable {next : ℕ} {timers timers' : List (Timer τ κ)} {heap : Array (Due τ)} {top : Due τ}

theorem due_eq (h : Stacked next timers heap) {t : Timer τ κ} (ht : t ∈ timers) {due : Due τ}
    (hdue : due ∈ heap.toList) (hserial : t.serial = due.serial) : t.due = due :=
  List.inj_on_of_nodup_map h.nodup (h.held t ht) hdue hserial

theorem subset (h : Stacked next timers heap) (hsub : ∀ t ∈ timers', t ∈ timers) :
    Stacked next timers' heap :=
  ⟨h.settled, fun t ht => h.held t (hsub t ht), h.old, h.nodup⟩

theorem push (h : Stacked next timers heap) {t : Timer τ κ} (ht : t.serial = next)
    (hsub : ∀ u ∈ timers', u = t ∨ u ∈ timers) :
    Stacked (next + 1) timers' (Heap.push Due.before t.due heap) := by
  have hperm := Heap.push_perm Due.before t.due heap
  refine ⟨Heap.push_settled Due.sorts h.settled t.due, fun u hu => ?_, fun due hdue => ?_, ?_⟩
  · rw [hperm.mem_iff, List.mem_cons]
    rcases hsub u hu with rfl | hu
    · exact .inl rfl
    · exact .inr (h.held u hu)
  · rw [hperm.mem_iff, List.mem_cons] at hdue
    rcases hdue with rfl | hdue
    · show t.serial < next + 1
      omega
    · exact Nat.lt_succ_of_lt (h.old due hdue)
  · rw [(hperm.map Due.serial).nodup_iff, List.map_cons, List.nodup_cons]
    refine ⟨fun hmem => ?_, h.nodup⟩
    obtain ⟨due, hdue, hserial⟩ := List.mem_map.mp hmem
    have hlt := h.old due hdue
    rw [hserial] at hlt
    exact absurd (ht ▸ hlt) (Nat.lt_irrefl _)

/-- The top is taken off, and is not the place of any call that is left. -/
theorem pop (h : Stacked next timers heap) (htop : heap[0]? = some top)
    (hsub : ∀ t ∈ timers', t ∈ timers) (hne : ∀ t ∈ timers', t.serial ≠ top.serial) :
    Stacked next timers' (Heap.pop Due.before heap) := by
  have hperm := Heap.pop_perm Due.before htop
  have hnodup := h.nodup
  rw [(hperm.map Due.serial).nodup_iff, List.map_cons, List.nodup_cons] at hnodup
  refine ⟨Heap.pop_settled Due.sorts h.settled, fun t ht => ?_, fun due hdue => ?_, hnodup.2⟩
  · rcases List.mem_cons.mp (hperm.mem_iff.mp (h.held t (hsub t ht))) with hdue | hdue
    · exact absurd (congrArg Due.serial hdue) (hne t ht)
    · exact hdue
  · exact h.old due (hperm.mem_iff.mpr (List.mem_cons_of_mem top hdue))

/-- Tops that are not wanted go, by induction on the tries. -/
theorem dropTops (h : Stacked next timers heap) {wanted : ℕ → Bool}
    (hwanted : ∀ t ∈ timers, wanted t.serial = true) (tries : ℕ) :
    Stacked next timers (Clock.dropTops wanted tries heap) := by
  induction tries generalizing heap with
  | zero => exact h
  | succ tries ih =>
    rw [Clock.dropTops]
    cases htop : heap[0]? with
    | none => exact h
    | some top =>
      dsimp only
      by_cases hkeep : wanted top.serial = true
      · rw [if_pos hkeep]
        exact h
      · rw [if_neg hkeep]
        refine ih (h.pop htop (fun t ht => ht) fun t ht hserial => ?_)
        exact hkeep (hserial ▸ hwanted t ht)

theorem tidied {c : Clock τ κ} (h : Stacked c.next c.timers c.heap) :
    Stacked c.next c.timers c.tidied.heap := by
  refine h.dropTops (fun t ht => ?_) _
  exact List.find?_isSome.mpr ⟨t, ht, beq_self_eq_true t.serial⟩

/-- The top of a heap without unwanted tops is the place of the first call. -/
theorem top_eq {c : Clock τ κ} (h : Stacked c.next c.timers c.heap)
    (hsorted : c.timers.Pairwise Timer.Before) :
    c.tidied.heap[0]? = c.timers.head?.map Timer.due := by
  have htidied := h.tidied
  cases htop : c.tidied.heap[0]? with
  | none =>
    cases htimers : c.timers with
    | nil => rfl
    | cons t rest =>
      have hempty : c.tidied.heap = #[] := Array.eq_empty_of_size_eq_zero (by simpa using htop)
      have hmem := htidied.held t (by simp [htimers])
      rw [hempty] at hmem
      cases hmem
  | some top =>
    have hwanted : (c.timer? top.serial).isSome := Clock.dropTops_top _ le_rfl top htop
    obtain ⟨t, ht⟩ := Option.isSome_iff_exists.mp hwanted
    have hmem : t ∈ c.timers := List.mem_of_find?_eq_some ht
    have hserial : t.serial = top.serial := by simpa using List.find?_some ht
    have htop_mem : top ∈ c.tidied.heap.toList := (Array.mem_of_getElem? htop).val
    have hdue : t.due = top := htidied.due_eq hmem htop_mem hserial
    obtain ⟨u, rest, htimers⟩ := List.exists_cons_of_ne_nil (List.ne_nil_of_mem hmem)
    rw [htimers, List.head?_cons, Option.map_some]
    rw [htimers] at hsorted hmem
    rcases List.mem_cons.mp hmem with rfl | hmem
    · rw [hdue]
    · -- the first call is before this one, but no item of a heap is below its top
      have hbefore := (Timer.before_iff u t).mp ((List.pairwise_cons.mp hsorted).1 t hmem)
      obtain ⟨j, hj, hget⟩ := List.mem_iff_getElem.mp (htidied.held u (by simp [htimers]))
      have hleast := Heap.Settled.top_least Due.sorts htidied.settled j
      have hplace : c.tidied.heap[j]? = some u.due := by
        rw [← Array.getElem?_toList, List.getElem?_eq_getElem hj, hget]
      have hfalse := Heap.below_eq_false_iff.mp hleast u.due top hplace htop
      rw [hdue, hfalse] at hbefore
      contradiction

end Stacked

/-! ### Punctual clocks -/

/-- What holds of a clock on which these calls fired so far, the newest first. -/
structure Punctual (fired : List (Timer τ κ)) (c : Clock τ κ) : Prop where
  ordered : c.ordered = true
  sorted : c.timers.Pairwise Timer.Before
  fresh : ∀ t ∈ c.timers, t.serial < c.next
  /-- No call is overdue. -/
  ahead : ∀ t ∈ c.timers, c.now ≤ t.deadline
  past : ∀ t ∈ fired, t.deadline ≤ c.now ∧ t.serial < c.next
  behind : ∀ t ∈ fired, ∀ u ∈ c.timers, t.Before u
  rising : fired.Pairwise fun t u => u.Before t
  stacked : Stacked c.next c.timers c.heap

namespace Punctual

variable {fired : List (Timer τ κ)} {c c' : Clock τ κ} {t? : Option (Timer τ κ)}

theorem start (now : τ) : Punctual [] ({ now } : Clock τ κ) where
  ordered := rfl
  sorted := .nil
  fresh _ ht := by contradiction
  ahead _ ht := by contradiction
  past _ ht := by contradiction
  behind _ ht := by contradiction
  rising := .nil
  stacked := by
    refine ⟨fun j _ => ?_, fun _ ht => ?_, fun _ hdue => ?_, .nil⟩
    · exact Heap.below_of_size_le (Nat.zero_le j)
    · contradiction
    · contradiction

/-- The first call by the heap is the first of those that are still to come. -/
theorem first_of_heap (h : Punctual fired c) :
    (c.tidied.heap[0]?.bind fun due => c.timer? due.serial) = c.timers.head? := by
  rw [h.stacked.top_eq h.sorted]
  cases htimers : c.timers with
  | nil => rfl
  | cons t rest =>
    show c.timer? t.serial = some t
    rw [Clock.timer?, htimers]
    exact List.find?_cons_of_pos (beq_self_eq_true t.serial)

theorem tidied (h : Punctual fired c) : Punctual fired c.tidied :=
  { h with stacked := h.stacked.tidied }

theorem disarm (h : Punctual fired c) (serial : ℕ) : Punctual fired (c.disarm serial) := by
  have hsub : ∀ t ∈ (c.disarm serial).timers, t ∈ c.timers := fun t ht => (List.mem_filter.mp ht).1
  exact
    { h with
      sorted := h.sorted.sublist List.filter_sublist
      fresh := fun t ht => h.fresh t (hsub t ht)
      ahead := fun t ht => h.ahead t (hsub t ht)
      behind := fun t ht u hu => h.behind t ht u (hsub u hu)
      stacked := h.stacked.subset hsub }

theorem moveTo (h : Punctual fired c) {time : τ} (hpop : c.popDue (some time) = (none, c)) :
    Punctual fired (c.moveTo time) := by
  have hnow : (c.moveTo time).now = max c.now time := later_eq_max c.now time
  have hpast := lt_of_popDue_none h.ordered h.sorted hpop
  refine { h with ahead := fun t ht => ?_, past := fun t ht => ?_ }
  · rw [hnow]
    exact max_le (h.ahead t ht) (hpast t ht).le
  · rw [hnow]
    exact ⟨(h.past t ht).1.trans (le_max_left _ _), (h.past t ht).2⟩

/-- The call that falls due is first of all that are still to come, and not yet overdue. -/
theorem popDue (h : Punctual fired c) {limit : Option τ} {t : Timer τ κ}
    (hpop : c.popDue limit = (some t, c')) : Punctual (t :: fired) c' ∧ c'.now = t.deadline := by
  obtain ⟨⟨rest, htimers⟩, rfl⟩ := popDue_ordered h.ordered hpop
  have ht : t ∈ c.timers := by simp [htimers]
  have hleft : (c.tidied.fired t).timers = rest := by
    show c.timers.eraseP _ = rest
    rw [htimers]
    exact List.eraseP_cons_of_pos (beq_self_eq_true t.serial)
  have hnow : (c.tidied.fired t).now = t.deadline := by
    show later c.now t.deadline = t.deadline
    rw [later_eq_max, max_eq_right (h.ahead t ht)]
  have hsorted := h.sorted
  rw [htimers] at hsorted
  obtain ⟨hfirst, hrest⟩ := List.pairwise_cons.mp hsorted
  have hsub : ∀ u ∈ rest, u ∈ c.timers := fun u hu => by simp [htimers, hu]
  have hdeadline : ∀ {u : Timer τ κ}, t.Before u → t.deadline ≤ u.deadline := by
    rintro u (hlater | ⟨hsame, -⟩)
    · exact hlater.le
    · exact hsame.le
  refine ⟨⟨h.ordered, hleft ▸ hrest, ?_, ?_, ?_, ?_, ?_, ?_⟩, hnow⟩
  · rw [hleft]
    exact fun u hu => h.fresh u (hsub u hu)
  · rw [hleft, hnow]
    exact fun u hu => hdeadline (hfirst u hu)
  · rw [hnow]
    intro u hu
    rcases List.mem_cons.mp hu with rfl | hu
    · exact ⟨le_rfl, h.fresh u ht⟩
    · exact ⟨(h.past u hu).1.trans (h.ahead t ht), (h.past u hu).2⟩
  · rw [hleft]
    intro u hu v hv
    rcases List.mem_cons.mp hu with rfl | hu
    · exact hfirst v hv
    · exact h.behind u hu v (hsub v hv)
  · exact List.pairwise_cons.mpr ⟨fun u hu => h.behind u hu t ht, h.rising⟩
  · have htop : c.tidied.heap[0]? = some t.due := by
      rw [h.stacked.top_eq h.sorted, htimers]
      rfl
    rw [hleft]
    refine h.stacked.tidied.pop htop hsub fun u hu hserial => ?_
    -- a call of the same place would not stand behind this one
    have hsame := h.stacked.due_eq (hsub u hu) (h.stacked.held t ht) hserial
    have hbefore := (Timer.before_iff t u).mp (hfirst u hu)
    rw [hsame] at hbefore
    have hasymm := Due.sorts.asymm _ _ hbefore
    rw [hbefore] at hasymm
    contradiction

variable [Zero τ] [Add τ]

/-- A new call is due behind all that fired, since no delay is negative and its number is new. -/
theorem arm (hadd : ∀ t d : τ, 0 ≤ d → t ≤ t + d) (h : Punctual fired c) (delay : τ) (call : κ) :
    Punctual fired (c.arm delay call).2 := by
  have hdelay : (0 : τ) ≤ delayed delay := by
    unfold delayed
    split
    · exact le_rfl
    · exact not_lt.mp ‹_›
  have hahead : c.now ≤ c.now + delayed delay := hadd c.now _ hdelay
  have hmem : ∀ u ∈ (c.arm delay call).2.timers,
      u = ⟨c.now + delayed delay, c.next, call⟩ ∨ u ∈ c.timers := fun u => Clock.mem_insert.mp
  refine ⟨?_, insert_sorted h.sorted h.fresh, Clock.fresh_arm h.fresh delay call,
    fun u hu => ?_, fun u hu => ?_, fun t ht u hu => ?_, h.rising, h.stacked.push rfl hmem⟩
  · show (c.ordered && decide (c.now + delayed delay ≤ c.now + delayed delay)) = true
    simp [h.ordered]
  · rcases hmem u hu with rfl | hu
    · exact hahead
    · exact h.ahead u hu
  · exact ⟨(h.past u hu).1, Nat.lt_succ_of_lt (h.past u hu).2⟩
  · rcases hmem u hu with rfl | hu
    · rcases ((h.past t ht).1.trans hahead).lt_or_eq with hbefore | hsame
      · exact .inl hbefore
      · exact .inr ⟨hsame, (h.past t ht).2⟩
    · exact h.behind t ht u hu

end Punctual

/-! ### Lives -/

section Lives

variable [Zero τ] [Add τ] {fired : List (Timer τ κ)} {start c c' : Clock τ κ}
  {t? : Option (Timer τ κ)}

/-- Whatever happens to a clock, it stays punctual. -/
theorem Tick.punctual (hadd : ∀ t d : τ, 0 ≤ d → t ≤ t + d) (h : Punctual fired c)
    (htick : Tick c t? c') : Punctual (t?.toList ++ fired) c' := by
  cases htick with
  | arms delay call => exact h.arm hadd delay call
  | disarms serial => exact h.disarm serial
  | tidies => exact h.tidied
  | fires hpop => exact (h.popDue hpop).1
  | moves hpop => exact h.moveTo hpop

theorem Tick.now_le (htick : Tick c t? c') : c.now ≤ c'.now := by
  cases htick with
  | arms => exact le_rfl
  | disarms => exact le_rfl
  | tidies => exact le_rfl
  | @fires _ limit t hpop =>
    simp only [Clock.popDue] at hpop
    split at hpop
    · cases hpop
    · split at hpop
      · cases hpop
      · obtain rfl := (Prod.mk.inj hpop).2
        exact (le_max_left _ _).trans_eq (later_eq_max c.now _).symm
  | @moves time hpop => exact (le_max_left _ _).trans_eq (later_eq_max c.now time).symm

theorem Tick.later (htick : Tick c t? c') : c.Later c' := by
  cases htick with
  | arms delay call => exact .arm delay call c
  | disarms serial => exact .disarm serial c
  | tidies => exact ⟨le_rfl, fun _ ht => .inl ht⟩
  | fires hpop => exact .popDue hpop
  | moves => exact ⟨le_rfl, fun _ ht => .inl ht⟩

namespace Life

theorem punctual (hadd : ∀ t d : τ, 0 ≤ d → t ≤ t + d) {before : List (Timer τ κ)}
    (h : Punctual before start) (hlife : Life start fired c) : Punctual (fired ++ before) c := by
  induction hlife with
  | start => exact h
  | tick _ htick ih =>
    rw [List.append_assoc]
    exact htick.punctual hadd ih

theorem now_le (hlife : Life start fired c) : start.now ≤ c.now := by
  induction hlife with
  | start => exact le_rfl
  | tick _ htick ih => exact ih.trans htick.now_le

theorem later (hlife : Life start fired c) : start.Later c := by
  induction hlife with
  | start => exact .refl start
  | tick _ htick ih => exact ih.trans htick.later

/-- A call that is gone never fires. -/
theorem ne_of_gone {serial : ℕ} (hlife : Life start fired c) (hgone : start.Gone serial) :
    ∀ t ∈ fired, t.serial ≠ serial := by
  induction hlife with
  | start => simp
  | @tick fired c t? c' hbefore htick ih =>
    intro t ht
    rcases List.mem_append.mp ht with ht | ht
    · obtain rfl := Option.mem_toList.mp ht
      cases htick with
      | fires hpop => exact (hbefore.later.gone hgone).2 t (Clock.popDue_some hpop).1
    · exact ih t ht

end Life
end Lives
end Clock
end TunnelView
