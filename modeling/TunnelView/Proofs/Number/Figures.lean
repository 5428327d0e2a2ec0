import Mathlib
import TunnelView.Number.Decimal
import TunnelView.Text.Blank

/-!
# What numbers are written with

The text of a double, in whatever layout, is made of digits, signs, the point and a few letters. So
nothing in it is a blank, ends a line or divides the cells of a table.

Key definitions: `Text.IsFigure`, `Text.Figures`.
Key theorems: `Double.figures_briefText`, `Double.figures_wholeText`.
-/

namespace TunnelView

namespace Text

/-- Digits, signs, the point, the mark of an exponent, and the letters of the words for an infinity
and for the undefined double. -/
def IsFigure (c : Char) : Prop :=
  c.isDigit = true ∨ c ∈ ['+', '-', '.', 'e', 'i', 'n', 'f', 'a']

/-- A text of figures alone. -/
def Figures (s : String) : Prop := ∀ c ∈ s.toList, IsFigure c

variable {c : Char} {s t : String}

/-- Figures are plain characters above the blank. -/
theorem IsFigure.range (h : IsFigure c) : 0x2b ≤ c.toNat ∧ c.toNat ≤ 0x6e := by
  rcases h with hdigit | hletter
  · have hrange : 0x30 ≤ c.toNat ∧ c.toNat ≤ 0x39 := Char.isDigit_iff_toNat.mp hdigit
    omega
  · simp only [List.mem_cons, List.not_mem_nil, or_false] at hletter
    rcases hletter with rfl | rfl | rfl | rfl | rfl | rfl | rfl | rfl <;> simp

theorem IsFigure.isBlank (h : IsFigure c) : isBlank c = false := by
  have hrange := h.range
  rw [Text.isBlank, List.any_eq_false]
  intro (low, high) hmem
  have hend : high < 0x2b ∨ 0x6e < low := by
    revert hmem
    unfold blankRanges
    simp only [List.mem_cons, List.not_mem_nil, or_false, Prod.mk.injEq]
    omega
  simp only [Bool.and_eq_true, decide_eq_true_eq]
  omega

theorem Figures.append (hs : Figures s) (ht : Figures t) : Figures (s ++ t) := by
  intro c hc
  rw [String.toList_append, List.mem_append] at hc
  exact hc.elim (hs c) (ht c)

theorem Figures.ofList {cs : List Char} (h : ∀ c ∈ cs, IsFigure c) : Figures (String.ofList cs) := by
  intro c hc
  rw [String.toList_ofList] at hc
  exact h c hc

theorem figures_repr (n : ℕ) : Figures (Nat.repr n) := by
  rw [Nat.repr_eq_ofList_toDigits]
  exact .ofList fun c hc => .inl (Nat.isDigit_of_mem_toDigits (by decide) le_rfl hc)

/-- A minus in front of figures, or nothing. -/
theorem Figures.signed (h : Figures s) (negative : Bool) :
    Figures ((if negative then "-" else "") ++ s) := by
  refine .append ?_ h
  cases negative <;> simp [Figures, IsFigure]

end Text

open Text (IsFigure Figures)

theorem Digits.figures_exponentText (e : ℤ) : Figures (Digits.exponentText e) := by
  unfold exponentText
  dsimp only
  refine .append ?_ ?_
  · split <;> simp [Figures, IsFigure]
  · split
    · refine .append ?_ (Text.figures_repr _)
      simp [Figures, IsFigure]
    · exact Text.figures_repr _

theorem Digits.figures_write (layout : Layout) (d : Digits) : Figures (d.write layout) := by
  have hdigits := Text.figures_repr d.digits
  have hpoint : IsFigure '.' := .inr (by simp)
  have hzeros : ∀ n, ∀ c ∈ List.replicate n '0', IsFigure c := by
    intro n c hc
    rw [List.eq_of_mem_replicate hc]
    exact .inl rfl
  unfold write
  dsimp only
  split
  · refine .append ?_ (figures_exponentText _)
    split
    · rename_i first second rest htext
      refine .ofList fun c hc => ?_
      rw [List.mem_cons, List.mem_cons] at hc
      rcases hc with rfl | rfl | hc
      · exact hdigits _ (by simp [htext])
      · exact hpoint
      · exact hdigits _ (by rw [htext]; exact List.mem_cons_of_mem _ hc)
    · exact .ofList hdigits
  · split
    · refine .append (by simp [Figures, IsFigure]) (.ofList fun c hc => ?_)
      exact (List.mem_append.mp hc).elim (hzeros _ c) (hdigits c)
    · split
      · refine .append (.ofList fun c hc => ?_) ?_
        · exact (List.mem_append.mp hc).elim (hdigits c) (hzeros _ c)
        · split <;> simp [Figures, IsFigure]
      · refine .ofList fun c hc => ?_
        rcases List.mem_append.mp hc with hc | hc
        · exact hdigits c (List.mem_of_mem_take hc)
        · rcases List.mem_cons.mp hc with rfl | hc
          · exact hpoint
          · exact hdigits c (List.mem_of_mem_drop hc)

namespace Double

theorem figures_writeSpecial (x : Double) : Figures x.writeSpecial := by
  unfold writeSpecial
  split <;> simp [Figures, IsFigure]

theorem figures_briefText (x : Double) : Figures x.briefText := by
  unfold briefText write
  split
  · exact (Digits.figures_write _ _).signed _
  · exact x.figures_writeSpecial

theorem figures_wholeText (x : Double) : Figures x.wholeText := by
  unfold wholeText
  split
  · exact (Text.figures_repr _).signed _
  · exact x.figures_writeSpecial

end Double
end TunnelView
