import Mathlib.Algebra.Order.Field.Rat
import Mathlib.Algebra.Order.Field.Power
import Mathlib.Tactic.FieldSimp
import Mathlib.Tactic.Linarith
import Mathlib.Tactic.Positivity
import Mathlib.Tactic.Ring
import TunnelView.Clock
import TunnelView.Number

/-!
# Where numbers stand

A number that is neither infinite nor undefined stands at a fraction, and such numbers are ordered as
their fractions are. The undefined number is below and above nothing, so the order of numbers is a
strict one, but no more than that.

Key definitions: `Exact.place?`, `Number.place?`.
Key theorems: `Number.lt_iff`, `Number.lt_trans`, `Number.place?_later`, `Number.zero_le_later`.
-/

namespace TunnelView

theorem pow2_ne_zero (e : ℤ) : pow2 e ≠ 0 := (Nat.two_pow_pos e.toNat).ne'

/-- A shift to the left over a shift to the right is a power. -/
theorem pow2_div_pow2_neg (e : ℤ) : (pow2 e : ℚ) / pow2 (-e) = 2 ^ e := by
  obtain ⟨k, rfl | rfl⟩ := e.eq_nat_or_neg
  · simp [pow2]
  · simp [pow2]

theorem pow2_pos (e : ℤ) : 0 < (pow2 e : ℚ) := by
  exact_mod_cast Nat.pos_of_ne_zero (pow2_ne_zero e)

theorem pow2_of_nonneg {e : ℤ} (h : 0 ≤ e) : (pow2 e : ℚ) = 2 ^ e := by
  obtain ⟨k, rfl⟩ := Int.eq_ofNat_of_zero_le h
  simp [pow2]

/-! ### The extended line -/

namespace Exact

/-- The fraction at which a point of the extended line stands, if it is on the line itself. -/
def place? : Exact → Option ℚ
  | .finite n e => some (n * 2 ^ e)
  | _ => none

variable {x y z : Exact} {p q : ℚ}

theorem lt_finite (n e m f : ℤ) :
    (finite n e).lt (finite m f) = true ↔ (n * 2 ^ e : ℚ) < m * 2 ^ f := by
  have hscale : ∀ k l : ℤ, l ≤ k → (2 ^ k : ℚ) = pow2 (k - l) * 2 ^ l := by
    intro k l h
    rw [pow2_of_nonneg (Int.sub_nonneg_of_le h), ← zpow_add₀ two_ne_zero, Int.sub_add_cancel]
  rw [hscale e (min e f) (min_le_left e f), hscale f (min e f) (min_le_right e f), ← mul_assoc,
    ← mul_assoc, mul_lt_mul_iff_left₀ (zpow_pos two_pos _)]
  simp only [lt, decide_eq_true_eq]
  exact_mod_cast Iff.rfl

/-- Points on the line are ordered as their fractions are. -/
theorem lt_iff (hx : x.place? = some p) (hy : y.place? = some q) : x.lt y = true ↔ p < q := by
  cases x <;> cases hx
  cases y <;> cases hy
  exact lt_finite ..

theorem le_iff (hx : x.place? = some p) (hy : y.place? = some q) : x.le y = true ↔ p ≤ q := by
  have hle : x.le y = !y.lt x := by
    cases x <;> cases hx
    cases y <;> cases hy
    rfl
  rw [hle, Bool.not_eq_true', ← not_lt, ← lt_iff hy hx, Bool.not_eq_true]

theorem lt_trans (hxy : x.lt y) (hyz : y.lt z) : x.lt z := by
  cases x <;> cases y <;> cases z <;> simp only [lt, Bool.false_eq_true] at hxy hyz ⊢
  rename_i n e m f k g
  exact (lt_finite ..).mpr (((lt_finite ..).mp hxy).trans ((lt_finite ..).mp hyz))

theorem lt_asymm (hxy : x.lt y) : y.lt x = false := by
  cases x <;> cases y <;> simp only [lt, Bool.false_eq_true] at hxy ⊢
  rename_i n e m f
  rw [← Bool.not_eq_true]
  intro hyx
  exact absurd ((lt_finite n e m f).mp hxy) (((lt_finite m f n e).mp hyx).not_gt)

theorem lt_self (x : Exact) : x.lt x = false := by
  by_contra h
  have hlt : x.lt x = true := by simpa using h
  exact h (lt_asymm hlt)

/-- Only what is undefined is not at its own place. -/
theorem le_self_iff : x.le x = true ↔ x ≠ .nowhere := by
  cases x <;> simp [le, lt_self]

theorem le_eq (hx : x.le x) (hy : y.le y) : x.le y = !y.lt x := by
  rw [le_self_iff] at hx hy
  cases x <;> cases y <;> first | rfl | contradiction

theorem ne_nowhere_of_lt (h : x.lt y) : x.le x ∧ y.le y := by
  rw [le_self_iff, le_self_iff]
  constructor <;> rintro rfl
  · cases y <;> contradiction
  · cases x <;> contradiction

theorem le_trans (hxy : x.le y) (hyz : y.le z) : x.le z := by
  cases x <;> cases y <;> cases z <;> first | rfl | contradiction | skip
  rename_i n e m f k g
  rw [le_iff rfl rfl] at hxy hyz ⊢
  exact hxy.trans hyz

theorem le_self_of_le (h : x.le y) : x.le x ∧ y.le y := by
  rw [le_self_iff, le_self_iff]
  constructor <;> rintro rfl
  · cases y <;> contradiction
  · cases x <;> contradiction

/-- What is between two places has a place. -/
theorem place?_of_between (hx : x.place? = some p) (hz : z.place? = some q) (hxy : x.lt y)
    (hyz : ¬z.lt y) : ∃ r, y.place? = some r := by
  cases x <;> cases hx
  cases z <;> cases hz
  cases y with
  | finite n e => exact ⟨_, rfl⟩
  | bottom => exact absurd hxy Bool.false_ne_true
  | top => exact absurd rfl hyz
  | nowhere => exact absurd hxy Bool.false_ne_true

end Exact

/-! ### Numbers -/

namespace Number

/-- The fraction at which a number stands, if it is neither infinite nor undefined. -/
def place? (a : Number) : Option ℚ := a.exact.place?

variable {a b c : Number} {p q : ℚ}

theorem place?_int (n : ℤ) : (Number.int n).place? = some (n : ℚ) := by
  simp [place?, exact, Exact.place?]

theorem lt_iff (ha : a.place? = some p) (hb : b.place? = some q) : a < b ↔ p < q :=
  Exact.lt_iff ha hb

theorem le_iff (ha : a.place? = some p) (hb : b.place? = some q) : a ≤ b ↔ p ≤ q :=
  Exact.le_iff ha hb

protected theorem lt_trans (hab : a < b) (hbc : b < c) : a < c := Exact.lt_trans hab hbc

protected theorem lt_asymm (hab : a < b) : ¬b < a := by
  rw [show (b < a) = (b.exact.lt a.exact = true) from rfl, Exact.lt_asymm hab]
  exact Bool.false_ne_true

/-- Only the undefined number is not at its own place. -/
theorem le_self_iff : a ≤ a ↔ a.exact ≠ .nowhere := Exact.le_self_iff

theorem le_self_of_lt (h : a < b) : a ≤ a ∧ b ≤ b := Exact.ne_nowhere_of_lt h

theorem le_iff_not_lt (ha : a ≤ a) (hb : b ≤ b) : a ≤ b ↔ ¬b < a := by
  rw [show (a ≤ b) = (a.exact.le b.exact = true) from rfl, Exact.le_eq ha hb, Bool.not_eq_true',
    ← Bool.not_eq_true]
  rfl

theorem le_of_lt (h : a < b) : a ≤ b :=
  (le_iff_not_lt (le_self_of_lt h).1 (le_self_of_lt h).2).mpr (Number.lt_asymm h)

protected theorem le_trans (hab : a ≤ b) (hbc : b ≤ c) : a ≤ c := Exact.le_trans hab hbc

theorem le_self_of_le (h : a ≤ b) : a ≤ a ∧ b ≤ b := Exact.le_self_of_le h

protected theorem le_total (ha : a ≤ a) (hb : b ≤ b) : a ≤ b ∨ b ≤ a := by
  by_cases hba : b < a
  · exact .inr (le_of_lt hba)
  · exact .inl ((le_iff_not_lt ha hb).mpr hba)

theorem place?_of_between (ha : a.place? = some p) (hc : c.place? = some q) (hab : a < b)
    (hbc : ¬c < b) : ∃ r, b.place? = some r ∧ p < r ∧ r ≤ q := by
  obtain ⟨r, hr⟩ : ∃ r, b.place? = some r := Exact.place?_of_between ha hc hab hbc
  exact ⟨r, hr, (lt_iff ha hr).mp hab, not_lt.mp (mt (lt_iff hc hr).mpr hbc)⟩

/-! ### The later of two times -/

theorem later_eq (a b : Number) : later a b = a ∨ later a b = b := by
  unfold later
  split
  · exact .inr rfl
  · exact .inl rfl

theorem place?_later (ha : a.place? = some p) (hb : b.place? = some q) :
    (later a b).place? = some (max p q) := by
  unfold later
  split
  · rename_i h
    rw [hb, max_eq_right ((lt_iff ha hb).mp h).le]
  · rename_i h
    rw [ha, max_eq_left (not_lt.mp (mt (lt_iff ha hb).mpr h))]

/-! ### Numbers that are not below zero -/

theorem place?_zero : (0 : Number).place? = some 0 := by
  show some (((0 : ℤ) : ℚ) * 2 ^ (0 : ℤ)) = some 0
  simp

theorem zero_le_zero : (0 : Number) ≤ 0 := (le_iff place?_zero place?_zero).mpr le_rfl

theorem zero_le_of_place? (ha : a.place? = some p) : 0 ≤ a ↔ 0 ≤ p := le_iff place?_zero ha

theorem le_self_of_zero_le (h : 0 ≤ a) : a ≤ a := by
  rw [le_self_iff]
  intro hnowhere
  rw [show (0 ≤ a) = ((0 : Number).exact.le a.exact = true) from rfl, hnowhere] at h
  contradiction

theorem zero_le_later (ha : 0 ≤ a) : 0 ≤ later a b := by
  unfold later
  split
  · rename_i hab
    refine (le_iff_not_lt zero_le_zero (le_self_of_lt hab).2).mpr fun hb => ?_
    exact (le_iff_not_lt zero_le_zero (le_self_of_zero_le ha)).mp ha (Number.lt_trans hab hb)
  · exact ha

/-- What is not at zero or below is above zero or nowhere. -/
theorem zero_le_of_not_le (h : ¬a ≤ 0) (ha : a ≤ a) : 0 ≤ a := by
  by_contra hneg
  rw [le_iff_not_lt zero_le_zero ha, not_not] at hneg
  exact h (le_of_lt hneg)

/-- What is zero or more is not below zero, and defined. -/
theorem zero_le_iff : 0 ≤ a ↔ ¬a < 0 ∧ a ≤ a := by
  constructor
  · intro h
    have ha := le_self_of_zero_le h
    exact ⟨(le_iff_not_lt zero_le_zero ha).mp h, ha⟩
  · rintro ⟨hneg, ha⟩
    exact (le_iff_not_lt zero_le_zero ha).mpr hneg

theorem delayed_eq (h : ¬a ≤ 0) : delayed a = a := if_neg fun hneg => h (le_of_lt hneg)

/-- The undefined number makes every sum undefined. -/
theorem add_nowhere (a : Number) (hb : ¬b ≤ b) : ¬a + b ≤ a + b := by
  rw [le_self_iff, not_not] at hb
  obtain rfl : b = .double .undefined := by
    rcases b with n | ⟨s, m, e⟩ | ⟨_ | _⟩ | _ <;> simp [exact, Double.exact] at hb ⊢
  rw [le_self_iff, not_not]
  have hsum : a + .double .undefined = .double (a.toDouble.add .undefined) := by cases a <;> rfl
  rw [hsum]
  cases a.toDouble <;> rfl

end Number
end TunnelView
