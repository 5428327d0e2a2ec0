import Mathlib.Algebra.Order.Group.Unbundled.Abs
import Mathlib.Tactic.GCongr
import TunnelView.Proofs.Number.Place

/-!
# How far rounding goes

A quotient is rounded by at most half of the last bit that a double keeps, so a sum or a difference
of numbers is off by a small part of their size, down to where doubles become sparse. Sums of an
integer and a double are rounded twice, since the integer is first made a double.

Key definitions: `Double.roundoff`, `Double.tiny`.
Key theorems: `Double.ofRatio_near`, `Double.add_near`, `Number.add_near`, `Number.sub_near`.
-/

namespace TunnelView

theorem roundDiv_near (num : ℕ) {den : ℕ} (hden : 0 < den) :
    |(roundDiv num den : ℚ) - num / den| ≤ 1 / 2 := by
  have hpos : (0 : ℚ) < den := by exact_mod_cast hden
  have hsplit : (num : ℚ) / den = (num / den : ℕ) + (num % den : ℕ) / den := by
    have hnum : (num : ℚ) = den * (num / den : ℕ) + (num % den : ℕ) := by
      exact_mod_cast (Nat.div_add_mod num den).symm
    field_simp
    linarith
  have hbelow : 2 * (num % den) ≤ den → ((num % den : ℕ) : ℚ) / den ≤ 1 / 2 := by
    intro h
    rw [div_le_iff₀ hpos]
    have hcast : (2 : ℚ) * (num % den : ℕ) ≤ den := by exact_mod_cast h
    linarith
  have habove : den ≤ 2 * (num % den) → 1 / 2 ≤ ((num % den : ℕ) : ℚ) / den := by
    intro h
    rw [le_div_iff₀ hpos]
    have hcast : (den : ℚ) ≤ 2 * (num % den : ℕ) := by exact_mod_cast h
    linarith
  have hzero : 0 ≤ ((num % den : ℕ) : ℚ) / den := by positivity
  have hone : ((num % den : ℕ) : ℚ) / den ≤ 1 := by
    rw [div_le_one hpos]
    exact_mod_cast (Nat.mod_lt num hden).le
  have hdown : 2 * (num % den) ≤ den → |((num / den : ℕ) : ℚ) - num / den| ≤ 1 / 2 := by
    intro h
    rw [hsplit, abs_le]
    constructor <;> linarith [hbelow h]
  have hup : den ≤ 2 * (num % den) → |((num / den + 1 : ℕ) : ℚ) - num / den| ≤ 1 / 2 := by
    intro h
    rw [hsplit, abs_le]
    push_cast
    constructor <;> linarith [habove h]
  unfold roundDiv
  dsimp only
  split_ifs with hlt hgt heven
  · exact hdown hlt.le
  · exact hup hgt.le
  · exact hdown (not_lt.mp hgt)
  · exact hup (not_lt.mp hlt)

namespace Double

/-- The part of a number by which rounding it once may be off, -/
def roundoff : ℚ := 2 ^ (-53 : ℤ)

/-- and half of the least double above zero, by which it may be off in any case. -/
def tiny : ℚ := 2 ^ (-1075 : ℤ)

theorem roundoff_pos : 0 < roundoff := zpow_pos two_pos _

theorem tiny_pos : 0 < tiny := zpow_pos two_pos _

theorem scaled_den_pos {den : ℕ} (hden : 0 < den) (num : ℕ) (e : ℤ) :
    0 < (scaled num den e).2 := Nat.mul_pos hden (Nat.two_pow_pos _)

theorem scaled_div (num : ℕ) {den : ℕ} (hden : 0 < den) (e : ℤ) :
    ((scaled num den e).1 : ℚ) / (scaled num den e).2 = num / den / 2 ^ e := by
  have hpos : (0 : ℚ) < den := by exact_mod_cast hden
  have hright := pow2_pos e
  have hleft := pow2_pos (-e)
  rw [← pow2_div_pow2_neg e, scaled]
  push_cast
  field_simp

/-- The last bit that is kept is the least there is, or 52 bits stand in front of it. -/
theorem lastBit_spec {num den : ℕ} (hnum : 0 < num) (hden : 0 < den) :
    lastBit num den = -1074 ∨ 2 ^ (52 + lastBit num den) ≤ (num : ℚ) / den := by
  have hpos : (0 : ℚ) < den := by exact_mod_cast hden
  unfold lastBit
  generalize he : (num.log2 : ℤ) - den.log2 - 52 = e
  dsimp only
  have hlogs : (2 : ℚ) ^ (51 + e) ≤ num / den := by
    have hlow : (2 : ℚ) ^ (num.log2 : ℤ) ≤ num := by
      rw [zpow_natCast]
      exact_mod_cast Nat.log2_self_le hnum.ne'
    have hhigh : (den : ℚ) ≤ 2 ^ (den.log2 + 1 : ℤ) := by
      rw [show (den.log2 + 1 : ℤ) = (den.log2 + 1 : ℕ) by push_cast; rfl, zpow_natCast]
      exact_mod_cast (Nat.lt_log2_self (n := den)).le
    rw [le_div_iff₀ hpos]
    calc (2 : ℚ) ^ (51 + e) * den ≤ 2 ^ (51 + e) * 2 ^ (den.log2 + 1 : ℤ) := by gcongr
      _ = 2 ^ (num.log2 : ℤ) := by
        rw [← zpow_add₀ two_ne_zero]
        congr 1
        omega
      _ ≤ num := hlow
  split_ifs with hfew
  · rcases le_total (e - 1) (-1074) with h | h
    · exact .inl (max_eq_right h)
    · right
      rw [max_eq_left h, show 52 + (e - 1) = 51 + e by ring]
      exact hlogs
  · rcases le_total e (-1074) with h | h
    · exact .inl (max_eq_right h)
    · right
      have hmany : (2 : ℚ) ^ (52 : ℤ) ≤ (scaled num den e).1 / (scaled num den e).2 := by
        have hden' : (0 : ℚ) < (scaled num den e).2 := by
          exact_mod_cast scaled_den_pos hden num e
        rw [le_div_iff₀ hden', mul_comm]
        have hcast : (scaled num den e).2 * pow2 52 ≤ (scaled num den e).1 := not_lt.mp hfew
        exact_mod_cast hcast
      rw [scaled_div num hden, le_div_iff₀ (zpow_pos two_pos e)] at hmany
      rw [max_eq_left h, zpow_add₀ two_ne_zero]
      exact hmany

/-- What is lost below the last bit that is kept. -/
theorem round_lastBit_near {num den : ℕ} (hnum : 0 < num) (hden : 0 < den) :
    |((roundDiv (scaled num den (lastBit num den)).1 (scaled num den (lastBit num den)).2 : ℕ) : ℚ)
      * 2 ^ lastBit num den - num / den| ≤ roundoff * (num / den) + tiny := by
  have hbit := lastBit_spec hnum hden
  generalize lastBit num den = e at hbit ⊢
  have hpow : (0 : ℚ) < 2 ^ e := zpow_pos two_pos e
  have hquot : 0 ≤ (num : ℚ) / den := by positivity
  have hround := roundDiv_near (scaled num den e).1 (scaled_den_pos hden num e)
  rw [scaled_div num hden] at hround
  generalize roundDiv (scaled num den e).1 (scaled num den e).2 = m at hround ⊢
  have hhalf : |(m : ℚ) * 2 ^ e - num / den| ≤ 1 / 2 * 2 ^ e := by
    have hmul := mul_le_mul_of_nonneg_right hround hpow.le
    rwa [← abs_of_pos hpow, ← abs_mul, sub_mul, abs_of_pos hpow, div_mul_cancel₀ _ hpow.ne']
      at hmul
  refine hhalf.trans ?_
  rcases hbit with rfl | hbit
  · have htiny : (1 / 2 * 2 ^ (-1074 : ℤ) : ℚ) = tiny := by
      rw [tiny, show (-1075 : ℤ) = -1 + -1074 by norm_num, zpow_add₀ two_ne_zero, zpow_neg_one,
        one_div]
    rw [htiny]
    linarith [mul_nonneg roundoff_pos.le hquot]
  · have hpart : (1 / 2 * 2 ^ e : ℚ) = roundoff * 2 ^ (52 + e) := by
      rw [roundoff, ← zpow_add₀ two_ne_zero, show -53 + (52 + e) = -1 + e by ring,
        zpow_add₀ two_ne_zero, zpow_neg_one, one_div]
    rw [hpart]
    linarith [mul_le_mul_of_nonneg_left hbit roundoff_pos.le, tiny_pos]

theorem lastBit_le {num den : ℕ} (hnum : 0 < num) (hden : 0 < den)
    (hlarge : (num : ℚ) / den ≤ 2 ^ (1002 : ℤ)) : lastBit num den ≤ 950 := by
  rcases lastBit_spec hnum hden with h | h
  · omega
  · have hpow := (zpow_le_zpow_iff_right₀ (one_lt_two : (1 : ℚ) < 2)).mp (h.trans hlarge)
    omega

/-- The quotient by the last bit is rounded; if that gives 54 bits, the last bit is one further up. -/
theorem ofRatio_eq (negative : Bool) {num m : ℕ} (den : ℕ) {e : ℤ} (hnum : 0 < num)
    (he : lastBit num den = e) (hm : roundDiv (scaled num den e).1 (scaled num den e).2 = m) :
    ofRatio negative num den =
      if m = pow2 53 then
        if 971 < e + 1 then .infinite negative else .finite negative (pow2 52) (e + 1)
      else if m = 0 then .finite negative 0 0
      else if 971 < e then .infinite negative else .finite negative m e := by
  have hone := pow2_ne_zero 52
  unfold ofRatio
  rw [if_neg hnum.ne', he]
  dsimp only
  rw [hm]
  by_cases hfull : m = pow2 53
  · rw [if_pos hfull, if_pos hfull]
    dsimp only
    rw [if_neg hone]
  · rw [if_neg hfull, if_neg hfull]

/-- A fraction of 54 bits is one of 53. -/
theorem carry_value (e : ℤ) : ((pow2 52 : ℕ) : ℚ) * 2 ^ (e + 1) = (pow2 53 : ℕ) * 2 ^ e := by
  rw [pow2_of_nonneg (by omega), pow2_of_nonneg (by omega), ← zpow_add₀ two_ne_zero,
    ← zpow_add₀ two_ne_zero]
  congr 1
  ring

/-- A quotient that is not too large is rounded to a finite double close to it. -/
theorem ofRatio_near (negative : Bool) {num den : ℕ} (hnum : 0 < num) (hden : 0 < den)
    (hlarge : (num : ℚ) / den ≤ 2 ^ (1002 : ℤ)) : ∃ m e, ofRatio negative num den =
      .finite negative m e ∧ |(m : ℚ) * 2 ^ e - num / den| ≤ roundoff * (num / den) + tiny := by
  have hnear := round_lastBit_near hnum hden
  have hsmall := lastBit_le hnum hden hlarge
  have heq := ofRatio_eq negative den hnum rfl rfl
  generalize lastBit num den = e at hnear heq hsmall
  generalize roundDiv (scaled num den e).1 (scaled num den e).2 = m at hnear heq
  rw [if_neg (by omega : ¬971 < e + 1), if_neg (by omega : ¬971 < e)] at heq
  rw [heq]
  split_ifs with hfull hzero
  · refine ⟨_, _, rfl, ?_⟩
    rwa [carry_value, ← hfull]
  · refine ⟨_, _, rfl, ?_⟩
    rw [hzero] at hnear
    rwa [Nat.cast_zero, zero_mul] at hnear ⊢
  · exact ⟨_, _, rfl, hnear⟩

/-- The double nearest to a scaled integer that is not too large is close to it. -/
theorem ofScaled_near (zeroNegative : Bool) (n e : ℤ) (hlarge : |(n : ℚ) * 2 ^ e| ≤ 2 ^ (1002 : ℤ)) :
    ∃ v, (ofScaled zeroNegative n e).exact.place? = some v ∧
      |v - n * 2 ^ e| ≤ roundoff * |(n : ℚ) * 2 ^ e| + tiny := by
  unfold ofScaled
  by_cases hn : n = 0
  · rw [if_pos hn]
    refine ⟨0, by cases zeroNegative <;> simp [exact, Exact.place?], ?_⟩
    simp [hn, tiny_pos.le]
  · rw [if_neg hn]
    have hnum : 0 < n.natAbs * pow2 e :=
      Nat.mul_pos (Int.natAbs_pos.mpr hn) (Nat.pos_of_ne_zero (pow2_ne_zero e))
    have hden : 0 < pow2 (-e) := Nat.pos_of_ne_zero (pow2_ne_zero (-e))
    have hsize : ((n.natAbs * pow2 e : ℕ) : ℚ) / pow2 (-e) = |(n : ℚ) * 2 ^ e| := by
      rw [abs_mul, abs_of_pos (zpow_pos two_pos e : (0 : ℚ) < 2 ^ e), ← pow2_div_pow2_neg e]
      push_cast
      rw [Nat.cast_natAbs, Int.cast_abs, mul_div_assoc]
    obtain ⟨m, f, hround, hnear⟩ :=
      ofRatio_near (decide (n < 0)) hnum hden (hsize.trans_le hlarge)
    rw [hround]
    rw [hsize] at hnear
    have hpow : (0 : ℚ) < 2 ^ e := zpow_pos two_pos e
    by_cases hneg : n < 0
    · refine ⟨-(m * 2 ^ f), by simp [exact, Exact.place?, hneg], ?_⟩
      have hvalue : (n : ℚ) * 2 ^ e < 0 := mul_neg_of_neg_of_pos (by exact_mod_cast hneg) hpow
      rw [abs_of_neg hvalue] at hnear ⊢
      rwa [← abs_neg, neg_sub, sub_neg_eq_add, add_comm, ← sub_neg_eq_add]
    · refine ⟨m * 2 ^ f, by simp [exact, Exact.place?, hneg], ?_⟩
      have hvalue : 0 ≤ (n : ℚ) * 2 ^ e := mul_nonneg (by exact_mod_cast not_lt.mp hneg) hpow.le
      rwa [abs_of_nonneg hvalue] at hnear ⊢

variable {x y : Double} {p q : ℚ}

theorem place?_finite (a : Bool) (m : ℕ) (e : ℤ) : (finite a m e).exact.place? =
    some (((if a then -(m : ℤ) else m : ℤ) : ℚ) * 2 ^ e) := rfl

/-- The sum of two doubles is exact, or it is rounded once. -/
theorem add_eq (hx : x.exact.place? = some p) (hy : y.exact.place? = some q) :
    (x.add y).exact.place? = some (p + q) ∨
      ∃ n e, x.add y = ofScaled false n e ∧ (n : ℚ) * 2 ^ e = p + q := by
  rcases x with ⟨a, m, e⟩ | ⟨_ | _⟩ | _ <;> simp only [exact, Exact.place?, reduceCtorEq] at hx
  rcases y with ⟨b, k, f⟩ | ⟨_ | _⟩ | _ <;> simp only [exact, Exact.place?, reduceCtorEq] at hy
  replace hx := Option.some.inj hx
  replace hy := Option.some.inj hy
  have hp : m = 0 → p = 0 := by
    rintro rfl
    rw [← hx]
    simp
  have hq : k = 0 → q = 0 := by
    rintro rfl
    rw [← hy]
    simp
  simp only [add]
  by_cases hboth : m = 0 ∧ k = 0
  · left
    rw [if_pos hboth, hp hboth.1, hq hboth.2, place?_finite]
    simp
  rw [if_neg hboth]
  by_cases hfirst : m = 0
  · left
    rw [if_pos hfirst, hp hfirst, zero_add, place?_finite, hy]
  rw [if_neg hfirst]
  by_cases hsecond : k = 0
  · left
    rw [if_pos hsecond, hq hsecond, add_zero, place?_finite, hx]
  · right
    rw [if_neg hsecond]
    refine ⟨_, _, rfl, ?_⟩
    generalize (if a = true then -(m : ℤ) else m) = n at hx ⊢
    generalize (if b = true then -(k : ℤ) else k) = l at hy ⊢
    have hshift : ∀ (i g : ℤ), min e f ≤ g →
        ((i * pow2 (g - min e f) : ℤ) : ℚ) * 2 ^ min e f = i * 2 ^ g := by
      intro i g h
      push_cast
      rw [pow2_of_nonneg (Int.sub_nonneg_of_le h), mul_assoc, ← zpow_add₀ two_ne_zero,
        Int.sub_add_cancel]
    rw [Int.cast_add, add_mul, hshift n e (min_le_left e f), hshift l f (min_le_right e f), hx, hy]

/-- A sum is off by no more than one rounding. -/
theorem add_near (hx : x.exact.place? = some p) (hy : y.exact.place? = some q)
    (hlarge : |p + q| ≤ 2 ^ (1002 : ℤ)) : ∃ v, (x.add y).exact.place? = some v ∧
      |v - (p + q)| ≤ roundoff * |p + q| + tiny := by
  rcases add_eq hx hy with hexact | ⟨n, e, hsum, hvalue⟩
  · refine ⟨p + q, hexact, ?_⟩
    rw [sub_self, abs_zero]
    exact add_nonneg (mul_nonneg roundoff_pos.le (abs_nonneg _)) tiny_pos.le
  · rw [hsum, ← hvalue]
    rw [← hvalue] at hlarge
    exact ofScaled_near false n e hlarge

/-- A quotient is rounded to something of its sign. -/
theorem ofRatio_sign (negative : Bool) (num den : ℕ) :
    (∃ m e, ofRatio negative num den = .finite negative m e) ∨
      ofRatio negative num den = .infinite negative := by
  rcases num.eq_zero_or_pos with rfl | hnum
  · exact .inl ⟨_, _, if_pos rfl⟩
  · rw [ofRatio_eq negative den hnum rfl rfl]
    split_ifs
    · exact .inr rfl
    · exact .inl ⟨_, _, rfl⟩
    · exact .inl ⟨_, _, rfl⟩
    · exact .inr rfl
    · exact .inl ⟨_, _, rfl⟩

/-- What is not below zero is rounded to something that is not below zero. -/
theorem zero_le_ofScaled {n : ℤ} (h : 0 ≤ n) (e : ℤ) :
    zero.exact.le (ofScaled false n e).exact = true := by
  have hfinite : ∀ m f, zero.exact.le (finite false m f).exact = true := by
    intro m f
    have hvalue : (0 : ℚ) ≤ m * 2 ^ f := by positivity
    exact (Exact.le_iff Number.place?_zero (place?_finite false m f)).mpr (by simpa using hvalue)
  unfold ofScaled
  rw [decide_eq_false (not_lt.mpr h)]
  split
  · exact hfinite 0 0
  · rcases ofRatio_sign false (n.natAbs * pow2 e) (pow2 (-e)) with ⟨m, f, hround⟩ | hround
    · rw [hround]
      exact hfinite m f
    · rw [hround]
      rfl

theorem zero_le_add (hx : zero.exact.le x.exact) (hy : zero.exact.le y.exact) :
    zero.exact.le (x.add y).exact = true := by
  have hzero : zero.exact.place? = some 0 := Number.place?_zero
  rcases x with ⟨a, m, e⟩ | ⟨_ | _⟩ | _
  case undefined => contradiction
  case infinite.true => contradiction
  case infinite.false => rcases y with _ | ⟨_ | _⟩ | _ <;> first | rfl | contradiction
  rcases y with ⟨b, k, f⟩ | ⟨_ | _⟩ | _
  case undefined => contradiction
  case infinite.true => contradiction
  case infinite.false => rfl
  rw [Exact.le_iff hzero (place?_finite ..)] at hx hy
  rcases add_eq (place?_finite a m e) (place?_finite b k f) with hexact | ⟨n, g, hsum, hvalue⟩
  · exact (Exact.le_iff hzero hexact).mpr (add_nonneg hx hy)
  · rw [hsum]
    refine zero_le_ofScaled ?_ g
    have hpos : (0 : ℚ) ≤ n * 2 ^ g := hvalue ▸ add_nonneg hx hy
    exact_mod_cast nonneg_of_mul_nonneg_left hpos (zpow_pos two_pos g)

theorem place?_neg (hx : x.exact.place? = some p) : x.neg.exact.place? = some (-p) := by
  rcases x with ⟨a, m, e⟩ | ⟨_ | _⟩ | _ <;> simp only [exact, Exact.place?, reduceCtorEq] at hx
  obtain rfl := Option.some.inj hx
  cases a <;> simp [neg, exact, Exact.place?]

end Double

/-! ### Numbers -/

namespace Number

variable {a b : Number} {p q : ℚ}

theorem toDouble_near (ha : a.place? = some p) (hlarge : |p| ≤ 2 ^ (1002 : ℤ)) :
    ∃ v, a.toDouble.exact.place? = some v ∧ |v - p| ≤ Double.roundoff * |p| + Double.tiny := by
  cases a with
  | int n =>
    rw [place?_int] at ha
    obtain rfl := Option.some.inj ha
    have hnear := Double.ofScaled_near false n 0
    rw [zpow_zero, mul_one] at hnear
    exact hnear hlarge
  | double x =>
    refine ⟨p, ha, ?_⟩
    rw [sub_self, abs_zero]
    exact add_nonneg (mul_nonneg Double.roundoff_pos.le (abs_nonneg p)) Double.tiny_pos.le

theorem zero_le_int {n : ℤ} : 0 ≤ Number.int n ↔ 0 ≤ n := by
  rw [zero_le_of_place? (place?_int n)]
  exact_mod_cast Iff.rfl

theorem zero_le_toDouble (h : 0 ≤ a) : Double.zero.exact.le a.toDouble.exact = true := by
  cases a with
  | int n => exact Double.zero_le_ofScaled (zero_le_int.mp h) 0
  | double x => exact h

/-- A sum of what is not below zero is not below zero. -/
theorem zero_le_add (ha : 0 ≤ a) (hb : 0 ≤ b) : 0 ≤ a + b := by
  cases a <;> cases b
  case int.int n m => exact zero_le_int.mpr (add_nonneg (zero_le_int.mp ha) (zero_le_int.mp hb))
  all_goals exact Double.zero_le_add (zero_le_toDouble ha) (zero_le_toDouble hb)

/-- How far off a sum may be: both terms and the result are rounded. -/
def slack (size : ℚ) : ℚ := 4 * (Double.roundoff * size + Double.tiny)

theorem slack_nonneg {size : ℚ} (h : 0 ≤ size) : 0 ≤ slack size :=
  mul_nonneg (by norm_num)
    (add_nonneg (mul_nonneg Double.roundoff_pos.le h) Double.tiny_pos.le)

theorem toDoubles_near (ha : a.place? = some p) (hb : b.place? = some q)
    (hlarge : |p| + |q| ≤ 2 ^ (1000 : ℤ)) :
    ∃ v u, a.toDouble.exact.place? = some v ∧ b.toDouble.exact.place? = some u ∧
      |v - p| ≤ Double.roundoff * |p| + Double.tiny ∧
      |u - q| ≤ Double.roundoff * |q| + Double.tiny := by
  have hthousand : (2 : ℚ) ^ (1000 : ℤ) ≤ 2 ^ (1002 : ℤ) :=
    zpow_le_zpow_right₀ one_le_two (by norm_num)
  obtain ⟨v, hv, hp⟩ := toDouble_near ha
    ((le_add_of_nonneg_right (abs_nonneg q)).trans (hlarge.trans hthousand))
  obtain ⟨u, hu, hq⟩ := toDouble_near hb
    ((le_add_of_nonneg_left (abs_nonneg p)).trans (hlarge.trans hthousand))
  exact ⟨v, u, hv, hu, hp, hq⟩

/-- Two numbers are made doubles and added. -/
theorem toDouble_add_near {x y : Double} {v u : ℚ} (hx : x.exact.place? = some v)
    (hy : y.exact.place? = some u) (hv : |v - p| ≤ Double.roundoff * |p| + Double.tiny)
    (hu : |u - q| ≤ Double.roundoff * |q| + Double.tiny) (hlarge : |p| + |q| ≤ 2 ^ (1000 : ℤ)) :
    ∃ s, (x.add y).exact.place? = some s ∧ |s - (p + q)| ≤ slack (|p| + |q|) := by
  have hunit : Double.roundoff ≤ 1 / 4 := by
    rw [Double.roundoff, show (1 / 4 : ℚ) = 2 ^ (-2 : ℤ) by norm_num]
    exact zpow_le_zpow_right₀ one_le_two (by norm_num)
  have htiny : Double.tiny ≤ 2 ^ (1000 : ℤ) := zpow_le_zpow_right₀ one_le_two (by norm_num)
  have hfour : (4 : ℚ) * 2 ^ (1000 : ℤ) = 2 ^ (1002 : ℤ) := by
    rw [show (1002 : ℤ) = 2 + 1000 by norm_num, zpow_add₀ two_ne_zero, zpow_two]
    norm_num
  generalize (2 : ℚ) ^ (1000 : ℤ) = large at hlarge htiny hfour
  have hpos := Double.roundoff_pos
  have hpart : Double.roundoff * (|p| + |q|) ≤ 1 / 4 * (|p| + |q|) :=
    mul_le_mul_of_nonneg_right hunit (by positivity)
  have hterms : |v + u - (p + q)| ≤ Double.roundoff * (|p| + |q|) + 2 * Double.tiny := by
    rw [show v + u - (p + q) = (v - p) + (u - q) by ring]
    linarith [abs_add_le (v - p) (u - q)]
  have hsum : |v + u| ≤ 5 / 4 * (|p| + |q|) + 2 * Double.tiny := by
    have hsplit := abs_add_le (v + u - (p + q)) (p + q)
    rw [sub_add_cancel] at hsplit
    linarith [abs_add_le p q]
  have hlow : |v + u| ≤ 4 * large := by
    linarith only [hsum, hlarge, htiny, Double.tiny_pos]
  obtain ⟨s, hs, hnear⟩ := Double.add_near hx hy (hlow.trans hfour.le)
  refine ⟨s, hs, ?_⟩
  have hround : Double.roundoff * |v + u| ≤
      Double.roundoff * (5 / 4 * (|p| + |q|)) + 1 / 4 * (2 * Double.tiny) := by
    have hmul := mul_le_mul_of_nonneg_left hsum hpos.le
    have hless := mul_le_mul_of_nonneg_right hunit (mul_pos two_pos Double.tiny_pos).le
    linarith
  have hsplit := abs_add_le (s - (v + u)) (v + u - (p + q))
  rw [sub_add_sub_cancel] at hsplit
  have hpositive : 0 ≤ Double.roundoff * (|p| + |q|) := by positivity
  unfold slack
  linarith [Double.tiny_pos]

theorem add_near (ha : a.place? = some p) (hb : b.place? = some q)
    (hlarge : |p| + |q| ≤ 2 ^ (1000 : ℤ)) :
    ∃ v, (a + b).place? = some v ∧ |v - (p + q)| ≤ slack (|p| + |q|) := by
  obtain ⟨v, u, hv, hu, hp, hq⟩ := toDoubles_near ha hb hlarge
  cases a <;> cases b
  case int.int n m =>
    rw [place?_int] at ha hb
    obtain rfl := Option.some.inj ha
    obtain rfl := Option.some.inj hb
    refine ⟨n + m, ?_, ?_⟩
    · exact (place?_int (n + m)).trans (by push_cast; rfl)
    · rw [sub_self, abs_zero]
      exact slack_nonneg (by positivity)
  all_goals exact toDouble_add_near hv hu hp hq hlarge

theorem sub_near (ha : a.place? = some p) (hb : b.place? = some q)
    (hlarge : |p| + |q| ≤ 2 ^ (1000 : ℤ)) :
    ∃ v, (a - b).place? = some v ∧ |v - (p - q)| ≤ slack (|p| + |q|) := by
  obtain ⟨v, u, hv, hu, hp, hq⟩ := toDoubles_near ha hb hlarge
  have hneg : |-u - -q| ≤ Double.roundoff * |-q| + Double.tiny := by
    rwa [abs_neg, ← abs_neg, neg_sub, sub_neg_eq_add, neg_add_eq_sub]
  cases a <;> cases b
  case int.int n m =>
    rw [place?_int] at ha hb
    obtain rfl := Option.some.inj ha
    obtain rfl := Option.some.inj hb
    refine ⟨n - m, ?_, ?_⟩
    · exact (place?_int (n - m)).trans (by push_cast; rfl)
    · rw [sub_self, abs_zero]
      exact slack_nonneg (by positivity)
  all_goals
    rw [← abs_neg q] at hlarge ⊢
    rw [sub_eq_add_neg p q]
    exact toDouble_add_near hv (Double.place?_neg hu) hp hneg hlarge

end Number
end TunnelView
