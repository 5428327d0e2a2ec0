import Mathlib.Data.List.Perm.Basic
import Mathlib.Order.Nat
import TunnelView.Clock.Heap

/-!
# Heaps have the least item on top

An item that is put in rises past parents that it is below, and one that takes the place of the top
sinks to a leaf before it rises. On the way every item but that one stands where it may, and so the
whole is a heap in the end. What is in a heap changes only by the item that is put in or taken off.

Key definitions: `Heap.parent`, `Heap.Sorts`, `Heap.Settled`, `Heap.SettledBut`, `Heap.SettledUnder`.
Key theorems: `Heap.push_settled`, `Heap.pop_settled`, `Heap.push_perm`, `Heap.pop_perm`,
`Heap.Settled.top_least`.
-/

namespace TunnelView.Heap

variable {α : Type}

/-- The place above a place. -/
def parent (place : ℕ) : ℕ := (place - 1) / 2

theorem parent_lt {j : ℕ} (hj : 0 < j) : parent j < j := by
  unfold parent
  omega

/-- Whether items can be sorted by a comparison, where some may be equal. -/
structure Sorts (lt : α → α → Bool) : Prop where
  asymm : ∀ x y, lt x y → lt y x = false
  through : ∀ x y z, lt y x = false → lt z y = false → lt z x = false

/-- Whether no item is below that above it. -/
def Settled (lt : α → α → Bool) (h : Array α) : Prop := ∀ j, 0 < j → below lt h j (parent j) = false

/-- The same but for the item at one place, which may be below that above it; those under it may take
its place. -/
structure SettledBut (lt : α → α → Bool) (place : ℕ) (h : Array α) : Prop where
  others : ∀ j, 0 < j → j ≠ place → below lt h j (parent j) = false
  under : ∀ j, 0 < j → parent j = place → 0 < place → below lt h j (parent place) = false

/-- The same where those under the place may be below its item, too. -/
structure SettledUnder (lt : α → α → Bool) (place : ℕ) (h : Array α) : Prop where
  others : ∀ j, 0 < j → j ≠ place → parent j ≠ place → below lt h j (parent j) = false
  under : ∀ j, 0 < j → parent j = place → 0 < place → below lt h j (parent place) = false

/-! ### Comparing items by their places -/

section Below

variable {lt : α → α → Bool} {h h' : Array α} {i j k : ℕ}

theorem below_eq_false_iff : below lt h i j = false ↔
    ∀ x y, h[i]? = some x → h[j]? = some y → lt x y = false := by
  unfold below
  cases h[i]? with
  | none => simp
  | some x => cases h[j]? <;> simp

theorem below_eq_true_iff : below lt h i j = true ↔
    ∃ x y, h[i]? = some x ∧ h[j]? = some y ∧ lt x y = true := by
  unfold below
  cases h[i]? with
  | none => simp
  | some x => cases h[j]? <;> simp

/-- What is compared are the items that stand at the places. -/
theorem below_congr {i' j' : ℕ} (hi : h'[i]? = h[i']?) (hj : h'[j]? = h[j']?) :
    below lt h' i j = below lt h i' j' := by
  rw [below, below, hi, hj]

theorem below_of_size_le (hi : h.size ≤ i) : below lt h i j = false := by
  rw [below_eq_false_iff, Array.getElem?_eq_none hi]
  exact fun x y hx => by cases hx

theorem Sorts.below_asymm (hlt : Sorts lt) (hij : below lt h i j = true) :
    below lt h j i = false := by
  obtain ⟨x, y, hx, hy, hxy⟩ := below_eq_true_iff.mp hij
  rw [below_eq_false_iff, hx, hy]
  intro y' x' hy' hx'
  obtain rfl := Option.some.inj hy'
  obtain rfl := Option.some.inj hx'
  exact hlt.asymm _ _ hxy

theorem Sorts.below_self (hlt : Sorts lt) (i : ℕ) : below lt h i i = false := by
  by_contra hcontra
  rw [Bool.not_eq_false] at hcontra
  have hasymm := hlt.below_asymm hcontra
  rw [hasymm] at hcontra
  contradiction

/-- Not to be below goes through an item that stands in between. -/
theorem Sorts.below_through (hlt : Sorts lt) (hj : j < h.size) (hij : below lt h i j = false)
    (hjk : below lt h j k = false) : below lt h i k = false := by
  rw [below_eq_false_iff] at hij hjk ⊢
  intro x z hx hz
  have hy : h[j]? = some h[j] := Array.getElem?_eq_getElem hj
  exact hlt.through _ _ _ (hjk _ _ hy hz) (hij _ _ hx hy)

end Below

/-! ### Swaps -/

section Swaps

variable {h : Array α} {a b : ℕ}

section Places

variable (ha : a < h.size) (hb : b < h.size)

include ha hb

theorem getElem?_swap_left : (h.swapIfInBounds a b)[a]? = h[b]? := by
  rw [Array.swapIfInBounds, dif_pos ha, dif_pos hb, Array.getElem?_swap]
  by_cases hab : b = a
  · simp [hab]
  · simp [hab, hb]

theorem getElem?_swap_right : (h.swapIfInBounds a b)[b]? = h[a]? := by
  rw [Array.swapIfInBounds, dif_pos ha, dif_pos hb, Array.getElem?_swap]
  simp [ha]

theorem getElem?_swap_of_ne {i : ℕ} (hia : i ≠ a) (hib : i ≠ b) :
    (h.swapIfInBounds a b)[i]? = h[i]? := by
  rw [Array.swapIfInBounds, dif_pos ha, dif_pos hb, Array.getElem?_swap]
  simp [hia.symm, hib.symm]

end Places

theorem swap_perm (h : Array α) (a b : ℕ) : (h.swapIfInBounds a b).toList.Perm h.toList := by
  unfold Array.swapIfInBounds
  split
  · split
    · exact (Array.swap_perm _ _).toList
    · exact .refl _
  · exact .refl _

end Swaps

/-! ### Rising -/

section Rising

variable {lt : α → α → Bool} {h : Array α} {place : ℕ}

/-- What is under a place from which an item rises is not below that above it. -/
theorem SettledBut.below_up (hlt : Sorts lt) (hh : SettledBut lt place h)
    (hbelow : below lt h place (parent place) = true) {j : ℕ} (hj : 0 < j)
    (hbeside : parent j = parent place) : below lt h j place = false := by
  obtain ⟨x, y, hx, hy, -⟩ := below_eq_true_iff.mp hbelow
  have hupsize : parent place < h.size := (Array.getElem?_eq_some_iff.mp hy).1
  by_cases hjp : j = place
  · rw [hjp]
    exact hlt.below_self place
  · have hj' := hh.others j hj hjp
    rw [hbeside] at hj'
    exact hlt.below_through hupsize hj' (hlt.below_asymm hbelow)

/-- An item that rises by a place leaves the heap settled but for where it is then. -/
theorem SettledBut.step (hlt : Sorts lt) (hh : SettledBut lt place h)
    (hbelow : below lt h place (parent place) = true) :
    SettledBut lt (parent place) (h.swapIfInBounds place (parent place)) := by
  obtain ⟨x, y, hx, hy, -⟩ := below_eq_true_iff.mp hbelow
  have hsize : place < h.size := (Array.getElem?_eq_some_iff.mp hx).1
  have hupsize : parent place < h.size := (Array.getElem?_eq_some_iff.mp hy).1
  have hpos : 0 < place := by
    rcases Nat.eq_zero_or_pos place with rfl | hpos
    · exact absurd (hbelow.symm.trans (hlt.below_self 0)) (by decide)
    · exact hpos
  have hup : parent place < place := parent_lt hpos
  have hplace := getElem?_swap_left hsize hupsize
  have hparent := getElem?_swap_right hsize hupsize
  have helse : ∀ j, j ≠ place → j ≠ parent place →
      (h.swapIfInBounds place (parent place))[j]? = h[j]? := fun _ =>
    getElem?_swap_of_ne hsize hupsize
  constructor
  case others =>
    intro j hj hne
    by_cases hjp : j = place
    · subst hjp
      rw [below_congr hplace hparent]
      exact hlt.below_asymm hbelow
    · by_cases hunder : parent j = place
      · rw [hunder, below_congr (helse j hjp hne) hplace]
        exact hh.under j hj hunder hpos
      · by_cases hbeside : parent j = parent place
        · rw [hbeside, below_congr (helse j hjp hne) hparent]
          exact hh.below_up hlt hbelow hj hbeside
        · rw [below_congr (helse j hjp hne) (helse (parent j) hunder hbeside)]
          exact hh.others j hj hjp
  case under =>
    intro j hj hunder huppos
    have hupup : parent (parent place) < parent place := parent_lt huppos
    have hgrand := hh.others (parent place) huppos hup.ne
    have htop := helse (parent (parent place)) (hupup.trans hup).ne hupup.ne
    by_cases hjp : j = place
    · subst hjp
      rw [below_congr hplace htop]
      exact hgrand
    · have hne : j ≠ parent place := by
        rintro rfl
        exact hupup.ne hunder
      rw [below_congr (helse j hjp hne) htop]
      have hj' := hh.others j hj hjp
      rw [hunder] at hj'
      exact hlt.below_through hupsize hj' hgrand

/-- An item rises until the heap is settled. -/
theorem SettledBut.rise (hlt : Sorts lt) (hh : SettledBut lt place h) :
    Settled lt (Heap.rise lt place h) := by
  fun_induction Heap.rise lt place h with
  | case1 h => exact fun j hj => hh.others j hj hj.ne'
  | case2 place h _ _ hbelow ih => exact ih (hh.step hlt hbelow)
  | case3 place h hne _ hbelow =>
    intro j hj
    by_cases hjp : j = place
    · subst hjp
      exact Bool.eq_false_iff.mpr hbelow
    · exact hh.others j hj hjp

theorem rise_perm (lt : α → α → Bool) (place : ℕ) (h : Array α) :
    (Heap.rise lt place h).toList.Perm h.toList := by
  fun_induction Heap.rise lt place h with
  | case1 => exact .refl _
  | case2 place h _ _ _ ih => exact ih.trans (swap_perm h _ _)
  | case3 => exact .refl _

end Rising

/-! ### Sinking -/

section Sinking

variable {lt : α → α → Bool} {h : Array α} {place : ℕ}

theorem lesserChild_eq_or (lt : α → α → Bool) (place : ℕ) (h : Array α) :
    lesserChild lt place h = 2 * place + 1 ∨
      lesserChild lt place h = 2 * place + 2 ∧ 2 * place + 2 < h.size := by
  unfold lesserChild
  by_cases hright : 2 * place + 1 + 1 < h.size ∧
      (!below lt h (2 * place + 1) (2 * place + 1 + 1)) = true
  · exact .inr ⟨if_pos hright, hright.1⟩
  · exact .inl (if_neg hright)

/-- The child that goes up is not above the other one. -/
theorem below_lesserChild (hlt : Sorts lt) {j : ℕ} (hj : 0 < j) (hunder : parent j = place) :
    below lt h j (lesserChild lt place h) = false := by
  have hsides : j = 2 * place + 1 ∨ j = 2 * place + 2 := by
    unfold parent at hunder
    omega
  unfold lesserChild
  by_cases hright : 2 * place + 1 + 1 < h.size ∧
      (!below lt h (2 * place + 1) (2 * place + 1 + 1)) = true
  · rw [if_pos hright]
    rcases hsides with rfl | rfl
    · simpa using hright.2
    · exact hlt.below_self _
  · rw [if_neg hright]
    rcases hsides with rfl | rfl
    · exact hlt.below_self _
    · rcases Nat.lt_or_ge (2 * place + 2) h.size with hin | hout
      · have hleft : below lt h (2 * place + 1) (2 * place + 2) = true := by
          by_contra hcontra
          exact hright ⟨hin, by simpa using hcontra⟩
        exact hlt.below_asymm hleft
      · exact below_of_size_le hout

/-- An item that sinks by a place leaves the heap settled but for where it is then. -/
theorem SettledUnder.step (hlt : Sorts lt) (hh : SettledUnder lt place h)
    (hchild : 2 * place + 1 < h.size) : SettledUnder lt (lesserChild lt place h)
      (h.swapIfInBounds place (lesserChild lt place h)) := by
  have hmin : ∀ j, 0 < j → parent j = place → below lt h j (lesserChild lt place h) = false :=
    fun _ => below_lesserChild hlt
  have hcases := lesserChild_eq_or lt place h
  generalize lesserChild lt place h = child at hmin hcases
  have hdown : place < child := by omega
  have hsize : child < h.size := by omega
  have hup : parent child = place := by
    unfold parent
    omega
  have hplace := getElem?_swap_left (hdown.trans hsize) hsize
  have helse : ∀ j, j ≠ place → j ≠ child → (h.swapIfInBounds place child)[j]? = h[j]? := fun _ =>
    getElem?_swap_of_ne (hdown.trans hsize) hsize
  constructor
  case others =>
    intro j hj hne hnup
    by_cases hjp : j = place
    · subst hjp
      have habove : parent j < j := parent_lt hj
      rw [below_congr hplace (helse (parent j) habove.ne (habove.trans hdown).ne)]
      exact hh.under child (hj.trans hdown) hup hj
    · by_cases hunder : parent j = place
      · rw [hunder, below_congr (helse j hjp hne) hplace]
        exact hmin j hj hunder
      · rw [below_congr (helse j hjp hne) (helse (parent j) hunder hnup)]
        exact hh.others j hj hjp hunder
  case under =>
    intro j hj hunder _
    have hlow : child < j := by
      unfold parent at hunder
      omega
    rw [hup, below_congr (helse j (hdown.trans hlow).ne' hlow.ne') hplace, ← hunder]
    exact hh.others j hj (hdown.trans hlow).ne' (hunder.trans_ne hdown.ne')

/-- An item sinks to a leaf, from where it may still have to rise. -/
theorem SettledUnder.sink (hlt : Sorts lt) (hh : SettledUnder lt place h) :
    SettledBut lt (Heap.sink lt place h).1 (Heap.sink lt place h).2 := by
  fun_induction Heap.sink lt place h with
  | case1 place h hchild ih => exact ih (hh.step hlt hchild)
  | case2 place h hleaf =>
    refine ⟨fun j hj hne => ?_, hh.under⟩
    by_cases hunder : parent j = place
    · refine below_of_size_le ?_
      show h.size ≤ j
      unfold parent at hunder
      omega
    · exact hh.others j hj hne hunder

theorem sink_perm (lt : α → α → Bool) (place : ℕ) (h : Array α) :
    (Heap.sink lt place h).2.toList.Perm h.toList := by
  fun_induction Heap.sink lt place h with
  | case1 place h _ ih => exact ih.trans (swap_perm h _ _)
  | case2 => exact .refl _

end Sinking

/-! ### Putting in and taking off -/

section Ends

variable {lt : α → α → Bool} {h : Array α}

/-- No item of a heap is below the top, by induction on its place. -/
theorem Settled.top_least (hlt : Sorts lt) (hh : Settled lt h) (j : ℕ) :
    below lt h j 0 = false := by
  induction j using Nat.strongRecOn with
  | ind j ih =>
    rcases Nat.eq_zero_or_pos j with rfl | hj
    · exact hlt.below_self 0
    · rcases Nat.lt_or_ge j h.size with hin | hout
      · have hup : parent j < j := parent_lt hj
        exact hlt.below_through (hup.trans hin) (hh j hj) (ih _ hup)
      · exact below_of_size_le hout

theorem push_settled (hlt : Sorts lt) (hh : Settled lt h) (x : α) : Settled lt (push lt x h) := by
  refine SettledBut.rise hlt ⟨fun j hj hne => ?_, fun j hj hunder _ => ?_⟩
  · rcases Nat.lt_or_gt_of_ne hne with hin | hout
    · have hup : parent j < h.size := (parent_lt hj).trans hin
      rw [below_congr (Array.getElem?_push_lt hin |>.trans (Array.getElem?_eq_getElem hin).symm)
        (Array.getElem?_push_lt hup |>.trans (Array.getElem?_eq_getElem hup).symm)]
      exact hh j hj
    · refine below_of_size_le ?_
      rw [Array.size_push]
      exact hout
  · refine below_of_size_le ?_
    rw [Array.size_push]
    unfold parent at hunder
    omega

theorem push_perm (lt : α → α → Bool) (x : α) (h : Array α) :
    (push lt x h).toList.Perm (x :: h.toList) := by
  refine (rise_perm lt _ _).trans ?_
  rw [Array.toList_push]
  exact List.perm_append_singleton x h.toList

theorem pop_settled (hlt : Sorts lt) (hh : Settled lt h) : Settled lt (pop lt h) := by
  unfold pop
  split
  · exact hh
  · rename_i last _
    dsimp only
    split
    · rename_i hempty
      intro j hj
      refine below_of_size_le ?_
      rw [Array.isEmpty_iff.mp hempty]
      exact Nat.zero_le j
    · refine SettledBut.rise hlt (SettledUnder.sink hlt ⟨fun j hj hne hnup => ?_, ?_⟩)
      · rw [below_eq_false_iff]
        intro x y hx hy
        rw [Array.getElem?_setIfInBounds_ne (Ne.symm hne)] at hx
        rw [Array.getElem?_setIfInBounds_ne (Ne.symm hnup)] at hy
        rw [Array.getElem?_pop] at hx hy
        exact below_eq_false_iff.mp (hh j hj) x y (by grind) (by grind)
      · exact fun j hj _ hpos => absurd hpos (Nat.lt_irrefl 0)

theorem pop_perm (lt : α → α → Bool) {top : α} (htop : h[0]? = some top) :
    h.toList.Perm (top :: (pop lt h).toList) := by
  rcases h with ⟨_ | ⟨first, rest⟩⟩
  · simp at htop
  · obtain rfl : first = top := by simpa using htop
    rcases List.eq_nil_or_concat rest with rfl | ⟨middle, last, rfl⟩
    · exact .refl _
    · have hlast : (Array.mk (first :: (middle ++ [last]))).back? = some last := by
        rw [← List.cons_append]
        exact (Array.getLast?_toList _).symm.trans List.getLast?_concat
      have hinit : (Array.mk (first :: (middle ++ [last]))).pop = ⟨first :: middle⟩ := by
        simp [Array.pop, List.dropLast]
      unfold pop
      simp only [List.concat_eq_append, hlast, hinit]
      rw [if_neg (by simp)]
      have hset : (Array.setIfInBounds ⟨first :: middle⟩ 0 last).toList = last :: middle := by simp
      refine List.Perm.cons first (.trans ?_ (rise_perm lt _ _).symm)
      refine .trans ?_ (sink_perm lt 0 _).symm
      rw [hset]
      exact List.perm_append_singleton last middle

theorem size_pop (lt : α → α → Bool) (h : Array α) : (pop lt h).size = h.size - 1 := by
  cases htop : h[0]? with
  | none =>
    have hempty : h = #[] := Array.eq_empty_of_size_eq_zero (by simpa using htop)
    subst hempty
    rfl
  | some top =>
    have hlength := (pop_perm lt htop).length_eq
    simp only [List.length_cons, Array.length_toList] at hlength
    omega

end Ends
end TunnelView.Heap
