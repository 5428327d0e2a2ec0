import TunnelView.Proofs.Lapse

/-!
# Windows that are over in the end

A window is over after two tries at most if sums can tell it apart at the times of the events. With
a window of a finite length that is so as long as no event is later than `2 ^ 48` windows: each sum
is then off by a third of a window at most, so the first alarm rings no earlier than two thirds of a
window after the last report, and the second after four thirds. A window that is infinite is over at
once when its alarm rings, since no time that comes out of it is below it, and one that is undefined
puts nothing off.

Key definitions: `Window.Tells`, `Window.Within`, `Window.Awaited`.
Key theorem: `Window.Tells.lapses`.
-/

namespace TunnelView

/-! ### Numbers at the end of the line -/

namespace Number

variable {a b window : Number}

/-- An integer is no larger than its place is far out. -/
theorem fits_of_place? {p : ℚ} {bound : ℕ} (ha : a.place? = some p) (hzero : 0 ≤ p)
    (hp : p ≤ bound) : a.Fits bound := by
  rintro n rfl
  rw [place?_int] at ha
  obtain rfl := Option.some.inj ha
  have hn : 0 ≤ n := by exact_mod_cast hzero
  have hbound : n ≤ bound := by exact_mod_cast hp
  omega

theorem fits_infinite (ha : a.exact = .top) (bound : ℕ) : a.Fits bound := by
  rintro n rfl
  cases ha

theorem eq_infinite (ha : a.exact = .top) : a = .double (.infinite false) := by
  rcases a with n | ⟨s, m, e⟩ | ⟨_ | _⟩ | _ <;> cases ha
  rfl

theorem add_infinite (ha : 0 ≤ a) (hb : b.exact = .top) : (a + b).exact = .top := by
  obtain rfl := eq_infinite hb
  have hsum : (a + .double (.infinite false)) = .double (a.toDouble.add (.infinite false)) := by
    cases a <;> rfl
  have hx := zero_le_toDouble ha
  rw [hsum]
  generalize a.toDouble = x at hx
  rcases x with ⟨s, m, e⟩ | ⟨_ | _⟩ | _
  · rfl
  · rfl
  · exact absurd hx Bool.false_ne_true
  · exact absurd hx Bool.false_ne_true

/-- Whatever is taken from an infinite number, it does not get below one. -/
theorem sub_not_below (ha : a.exact = .top) (hwindow : window.exact = .top) (b : Number) :
    ¬a - b < window := by
  obtain rfl := eq_infinite ha
  have hdiff : (.double (.infinite false) - b : Number) =
      .double ((Double.infinite false).add b.toDouble.neg) := by cases b <;> rfl
  rw [hdiff]
  show ¬Exact.lt _ window.exact = true
  rw [hwindow]
  rcases b.toDouble.neg with ⟨s, m, e⟩ | ⟨_ | _⟩ | _ <;> exact Bool.false_ne_true

theorem later_infinite (ha : 0 ≤ a) (hb : b.exact = .top) : (later a b).exact = .top := by
  by_cases hlt : a < b
  · rwa [later, if_pos hlt]
  · rw [later, if_neg hlt]
    have hself := le_self_iff.mp (le_self_of_zero_le ha)
    rw [show (a < b) = (a.exact.lt b.exact = true) from rfl, hb] at hlt
    generalize a.exact = x at hlt hself
    cases x with
    | finite | bottom => exact absurd rfl hlt
    | top => rfl
    | nowhere => exact absurd rfl hself

end Number

/-! ### Times of events -/

namespace Window

/-- A length that is neither near the least doubles nor near the largest. -/
structure Ordinary (q : ℚ) : Prop where
  low : 2 ^ (-900 : ℤ) ≤ q
  high : q ≤ 2 ^ (900 : ℤ)

theorem Ordinary.pos {q : ℚ} (h : Ordinary q) : 0 < q := (zpow_pos two_pos _).trans_le h.low

/-- The times of events by which a window can be told apart. -/
structure Tells (window : Number) (times : List Number) : Prop where
  ordinary : ∀ q, window.place? = some q → Ordinary q
  reach : ∀ t ∈ times, ∃ p, t.place? = some p ∧ p ≤ 2 ^ (1000 : ℤ) ∧
    ∀ q, window.place? = some q → p ≤ 2 ^ 48 * q

/-- A time that is not beyond `far`. -/
def Timely (far : ℚ) (time : Number) : Prop := ∃ p, time.place? = some p ∧ p ≤ far

/-- The time when a report was last acted on, and a time that is not before it and not beyond `far`.
-/
def Within (far : ℚ) (last now : Number) : Prop :=
  ∃ p r, last.place? = some p ∧ now.place? = some r ∧ 0 ≤ p ∧ p ≤ r ∧ r ≤ far

variable {far : ℚ} {window last now time due : Number}

theorem ready_of_place? {r : ℚ} (hr : now.place? = some r) (hzero : 0 ≤ r)
    (hfar : r ≤ 2 ^ (1000 : ℤ)) : now.Ready := by
  refine ⟨(Number.zero_le_of_place? hr).mpr hzero, Number.fits_of_place? hr hzero ?_⟩
  rw [Number.modest]
  exact_mod_cast hfar

namespace Within

theorem start (hfar : 0 ≤ far) : Within far 0 0 :=
  ⟨0, 0, Number.place?_zero, Number.place?_zero, le_rfl, le_rfl, hfar⟩

theorem ready (h : Within far last now) (hfar : far ≤ 2 ^ (1000 : ℤ)) : now.Ready := by
  obtain ⟨p, r, -, hr, hp, hpr, hrfar⟩ := h
  exact ready_of_place? hr (hp.trans hpr) (hrfar.trans hfar)

theorem acted (h : Within far last now) : Within far now now := by
  obtain ⟨p, r, -, hr, hp, hpr, hrfar⟩ := h
  exact ⟨r, r, hr, hr, hp.trans hpr, le_rfl, hrfar⟩

theorem moved (h : Within far last now) (ht : Timely far time) :
    Within far last (later now time) := by
  obtain ⟨p, r, hlast, hr, hp, hpr, hrfar⟩ := h
  obtain ⟨t, ht, htfar⟩ := ht
  exact ⟨p, max r t, hlast, Number.place?_later hr ht, hp, hpr.trans (le_max_left r t),
    max_le hrfar htfar⟩

/-- What rings until an event rings at its time at the latest. -/
theorem fired (h : Within far last now) (ht : Timely far time) (hdue : ¬time < due) :
    Within far last (later now due) := by
  by_cases hlt : now < due
  · obtain ⟨-, r, -, hr, -⟩ := id h
    obtain ⟨t, ht, htfar⟩ := ht
    obtain ⟨x, hx, -, hxt⟩ := Number.place?_of_between hr ht hlt hdue
    exact h.moved ⟨x, hx, hxt.trans htfar⟩
  · rwa [later, if_neg hlt]

end Within

/-! ### Windows that are undefined or infinite -/

theorem lapses_undefined (hwindow : ¬window ≤ window) (hzero : 0 ≤ far)
    (hfar : far ≤ 2 ^ (1000 : ℤ)) :
    Lapses window (Timely far) (Within far) fun _ _ _ _ => False where
  start := .start hzero
  ready h := h.ready hfar
  acted h := h.acted
  moved h := h.moved
  fired h := h.fired
  putOff _ h := by
    rcases h with h | ⟨_, _, h⟩
    · exact hwindow (Number.le_self_of_lt h).2
    · exact h
  again h := h.elim
  passes h _ := h
  due h := h.elim

theorem lapses_infinite (hwindow : window.exact = .top) (hzero : 0 ≤ far)
    (hfar : far ≤ 2 ^ (1000 : ℤ)) :
    Lapses window (Timely far) (Within far) fun _ _ now due => due.exact = .top ∧ 0 ≤ now where
  start := .start hzero
  ready h := h.ready hfar
  acted h := h.acted
  moved h := h.moved
  fired h := h.fired
  putOff h _ := by
    have hpos : ¬window ≤ 0 := by
      rw [show (window ≤ 0) = (window.exact.le (0 : Number).exact = true) from rfl, hwindow]
      exact Bool.false_ne_true
    rw [Number.delayed_eq hpos]
    exact ⟨Number.add_infinite (h.ready hfar).zero_le hwindow, (h.ready hfar).zero_le⟩
  again h hearly := absurd hearly (Number.sub_not_below (Number.later_infinite h.2 h.1) hwindow _)
  passes h _ := ⟨h.1, Number.zero_le_later h.2⟩
  due h := by
    refine ⟨Number.le_self_iff.mpr ?_, Number.fits_infinite h.1 _, Number.zero_le_later h.2,
      Number.fits_infinite (Number.later_infinite h.2 h.1) _⟩
    rw [h.1]
    nofun

/-! ### Windows of a finite length -/

/-- At times up to some `2 ^ 48` windows a sum is off by a third of a window at most. -/
theorem slack_le {q size : ℚ} (h : Ordinary q) (hsize : size ≤ (2 ^ 49 + 4) * q) :
    Number.slack size ≤ q / 3 := by
  have hroundoff : Double.roundoff * 2 ^ 49 = 1 / 16 := by norm_num [Double.roundoff]
  have hunit : Double.roundoff ≤ 1 / 512 := by norm_num [Double.roundoff]
  have htiny : Double.tiny ≤ q / 512 := by
    have hlow : Double.tiny = 2 ^ (-900 : ℤ) * 2 ^ (-175 : ℤ) := by
      rw [Double.tiny, ← zpow_add₀ two_ne_zero]
      rfl
    have hsmall : (2 : ℚ) ^ (-175 : ℤ) ≤ 1 / 512 := by
      rw [show (1 / 512 : ℚ) = 2 ^ (-9 : ℤ) by norm_num]
      exact zpow_le_zpow_right₀ one_le_two (by norm_num)
    rw [hlow]
    have hzero : (0 : ℚ) ≤ 2 ^ (-900 : ℤ) := (zpow_pos two_pos _).le
    have hlow := h.low
    generalize (2 : ℚ) ^ (-900 : ℤ) = low at hlow hzero
    calc low * 2 ^ (-175 : ℤ) ≤ low * (1 / 512) := mul_le_mul_of_nonneg_left hsmall hzero
      _ ≤ q / 512 := by linarith
  have hpos := h.pos.le
  have hpart : Double.roundoff * size ≤ (1 / 16 + 4 / 512) * q := by
    calc Double.roundoff * size ≤ Double.roundoff * ((2 ^ 49 + 4) * q) :=
          mul_le_mul_of_nonneg_left hsize Double.roundoff_pos.le
      _ = (Double.roundoff * 2 ^ 49 + Double.roundoff * 4) * q := by ring
      _ ≤ (1 / 16 + 4 / 512) * q := by
        refine mul_le_mul_of_nonneg_right ?_ hpos
        linarith
  unfold Number.slack
  linarith

/-- What is known of a deadline, by the places of its times, after so many windows: each is told up
to a third of it. -/
structure Spaced (q far : ℚ) (windows : ℕ) (p r x : ℚ) : Prop where
  zero_le : 0 ≤ p
  le_now : p ≤ r
  last_le : p ≤ far
  now_le : r ≤ far + windows * (4 / 3 * q)
  le_due : p + windows * (2 / 3 * q) ≤ x
  due_le : x ≤ far + windows * (4 / 3 * q)

/-- A report waits for its deadline, which is one window after it came, with two tries left, or two
windows, with one. -/
def Awaited (q far : ℚ) (n : ℕ) (last now due : Number) : Prop :=
  ∃ windows p r x, (n = 2 ∧ windows = 1 ∨ n = 1 ∧ windows = 2) ∧ last.place? = some p ∧
    now.place? = some r ∧ due.place? = some x ∧ Spaced q far windows p r x

section Placed

variable {q : ℚ} (hwindow : window.place? = some q) (hq : Ordinary q) (hzero : 0 ≤ far)
  (hfar : far ≤ 2 ^ 48 * q)

include hq in
theorem size_le {size : ℚ} (hsize : size ≤ (2 ^ 49 + 4) * q) : size ≤ 2 ^ (1000 : ℤ) := by
  have hpow : (2 : ℚ) ^ 50 * 2 ^ (900 : ℤ) ≤ 2 ^ (1000 : ℤ) := by
    rw [← zpow_natCast, ← zpow_add₀ two_ne_zero]
    exact zpow_le_zpow_right₀ one_le_two (by norm_num)
  calc size ≤ (2 ^ 49 + 4) * q := hsize
    _ ≤ 2 ^ 50 * q := mul_le_mul_of_nonneg_right (by norm_num) hq.pos.le
    _ ≤ 2 ^ 50 * 2 ^ (900 : ℤ) := mul_le_mul_of_nonneg_left hq.high (by positivity)
    _ ≤ 2 ^ (1000 : ℤ) := hpow

include hq in
/-- Adding two numbers that are not below zero, up to a third of a window. -/
theorem add_close {a b : Number} {p r : ℚ} (ha : a.place? = some p) (hb : b.place? = some r)
    (hp : 0 ≤ p) (hr : 0 ≤ r) (hsize : p + r ≤ (2 ^ 49 + 4) * q) :
    ∃ v, (a + b).place? = some v ∧ p + r - q / 3 ≤ v ∧ v ≤ p + r + q / 3 := by
  have habs : |p| + |r| = p + r := by rw [abs_of_nonneg hp, abs_of_nonneg hr]
  obtain ⟨v, hv, hnear⟩ :=
    Number.add_near ha hb (habs.trans_le (size_le hq hsize))
  rw [habs] at hnear
  obtain ⟨hleft, hright⟩ := abs_le.mp (hnear.trans (slack_le hq hsize))
  exact ⟨v, hv, by linarith, by linarith⟩

include hq in
/-- Taking one number from another, up to a third of a window. -/
theorem sub_close {a b : Number} {p r : ℚ} (ha : a.place? = some p) (hb : b.place? = some r)
    (hp : 0 ≤ p) (hr : 0 ≤ r) (hsize : p + r ≤ (2 ^ 49 + 4) * q) :
    ∃ v, (a - b).place? = some v ∧ p - r - q / 3 ≤ v := by
  have habs : |p| + |r| = p + r := by rw [abs_of_nonneg hp, abs_of_nonneg hr]
  obtain ⟨v, hv, hnear⟩ :=
    Number.sub_near ha hb (habs.trans_le (size_le hq hsize))
  rw [habs] at hnear
  have hleft := (abs_le.mp (hnear.trans (slack_le hq hsize))).1
  exact ⟨v, hv, by linarith⟩

include hwindow hq in
theorem delayed_window : delayed window = window := by
  refine Number.delayed_eq fun h => ?_
  have hpos := hq.pos
  exact hpos.not_ge ((Number.le_iff hwindow Number.place?_zero).mp h)

include hq in
theorem windows_le {n windows : ℕ} (hn : n = 2 ∧ windows = 1 ∨ n = 1 ∧ windows = 2) :
    windows * (4 / 3 * q) ≤ 2 * (4 / 3 * q) := by
  have hpos := hq.pos
  have hbound : (windows : ℚ) ≤ 2 := by
    rcases hn with ⟨-, rfl⟩ | ⟨-, rfl⟩ <;> norm_num
  exact mul_le_mul_of_nonneg_right hbound (by linarith)

include hq hfar

include hwindow in
/-- A report that is put off waits for one window. -/
theorem Within.awaited (h : Within far last now) :
    Awaited q far 2 last now (now + delayed window) := by
  have hpos := hq.pos
  obtain ⟨p, r, hlast, hr, hp, hpr, hrfar⟩ := h
  rw [delayed_window hwindow hq]
  obtain ⟨x, hx, hlower, hupper⟩ :=
    add_close hq hr hwindow (hp.trans hpr) hpos.le (by linarith)
  refine ⟨1, p, r, x, .inl ⟨rfl, rfl⟩, hlast, hr, hx, ?_⟩
  constructor <;> push_cast <;> linarith

include hwindow in
/-- When its alarm rings too early it waits for another, and then it is not too early. -/
theorem Awaited.again {n : ℕ} (h : Awaited q far n last now due)
    (hearly : later now due - last < window) :
    2 ≤ n ∧ Awaited q far 1 last (later now due) (later now due + delayed window) := by
  have hpos := hq.pos
  obtain ⟨windows, p, r, x, hn, hlast, hr, hx, h⟩ := h
  obtain ⟨hp, hpr, hpfar, hrfar, hpx, hxfar⟩ := h
  have hlater := Number.place?_later hr hx
  have hlower : x ≤ max r x := le_max_right r x
  have hupper : max r x ≤ far + windows * (4 / 3 * q) := max_le hrfar hxfar
  generalize max r x = y at hlater hlower hupper
  have hwindows := windows_le hq hn
  have hy : 0 ≤ y := by
    have hpart : 0 ≤ windows * (2 / 3 * q) := by positivity
    linarith
  obtain ⟨v, hv, hdiff⟩ := sub_close hq hlater hlast hy hp (by linarith)
  have hless : v < q := (Number.lt_iff hv hwindow).mp hearly
  rcases hn with ⟨rfl, rfl⟩ | ⟨rfl, rfl⟩
  · refine ⟨le_rfl, ?_⟩
    rw [delayed_window hwindow hq]
    push_cast at hpx hupper
    obtain ⟨z, hz, hbelow, habove⟩ := add_close hq hlater hwindow hy hpos.le (by linarith)
    refine ⟨2, p, y, z, .inr ⟨rfl, rfl⟩, hlast, hlater, hz, ?_⟩
    constructor <;> push_cast <;> linarith
  · push_cast at hpx
    linarith

omit hfar in
theorem Awaited.passes {n : ℕ} (h : Awaited q far n last now due)
    (htime : ¬due < time ∨ ¬time ≤ time ∨ Timely far time) :
    Awaited q far n last (later now time) due := by
  by_cases hlt : now < time
  · rw [later, if_pos hlt]
    obtain ⟨windows, p, r, x, hn, hlast, hr, hx, hp, hpr, hpfar, hrfar, hpx, hxfar⟩ := h
    have hpos := hq.pos
    have hpart : 0 ≤ windows * (4 / 3 * q) := by positivity
    obtain ⟨t, ht, hrt, htfar⟩ : ∃ t, time.place? = some t ∧ r < t ∧
        t ≤ far + windows * (4 / 3 * q) := by
      rcases htime with hdue | hnowhere | ⟨t, ht, htfar⟩
      · obtain ⟨t, ht, hrt, htx⟩ := Number.place?_of_between hr hx hlt hdue
        exact ⟨t, ht, hrt, htx.trans hxfar⟩
      · exact absurd (Number.le_self_of_lt hlt).2 hnowhere
      · exact ⟨t, ht, (Number.lt_iff hr ht).mp hlt, by linarith⟩
    exact ⟨windows, p, t, x, hn, hlast, ht, hx, hp, hpr.trans hrt.le, hpfar, htfar, hpx, hxfar⟩
  · rwa [later, if_neg hlt]

theorem Awaited.due_spec {n : ℕ} (h : Awaited q far n last now due) :
    due ≤ due ∧ due.Fits Number.large ∧ (later now due).Ready := by
  have hpos := hq.pos
  obtain ⟨windows, p, r, x, hn, hlast, hr, hx, hp, hpr, hpfar, hrfar, hpx, hxfar⟩ := h
  have hwindows := windows_le hq hn
  have hpart : 0 ≤ windows * (2 / 3 * q) := by positivity
  have hsize : far + windows * (4 / 3 * q) ≤ 2 ^ (1000 : ℤ) :=
    size_le hq (by linarith)
  refine ⟨(Number.le_iff hx hx).mpr le_rfl, ?_, ?_⟩
  · have hready := ready_of_place? hx (by linarith) (hxfar.trans hsize)
    exact hready.fits.mono Number.modest_le_large
  · exact ready_of_place? (Number.place?_later hr hx) (hp.trans (hpr.trans (le_max_left r x)))
      ((max_le hrfar hxfar).trans hsize)

include hwindow hzero in
theorem lapses_placed : Lapses window (Timely far) (Within far) (Awaited q far) where
  start := .start hzero
  ready h := h.ready (size_le hq (by
    have hpos := hq.pos
    linarith))
  acted h := h.acted
  moved h := h.moved
  fired h := h.fired
  putOff h _ := h.awaited hwindow hq hfar
  again h hearly := h.again hwindow hq hfar hearly
  passes h htime := h.passes hq htime
  due h := h.due_spec hq hfar

end Placed

/-- **A window that can be told apart lapses.** -/
theorem Tells.lapses {times : List Number} (h : Tells window times) (hpos : ¬window ≤ 0) :
    ∃ timely sane waits, (∀ t ∈ times, timely t) ∧ Lapses window timely sane waits := by
  have hlong : (0 : ℚ) ≤ 2 ^ (1000 : ℤ) := (zpow_pos two_pos _).le
  have htimely : ∀ t ∈ times, Timely (2 ^ (1000 : ℤ)) t := by
    intro t ht
    obtain ⟨p, hp, hle, -⟩ := h.reach t ht
    exact ⟨p, hp, hle⟩
  cases hexact : window.exact with
  | finite n e =>
    have hwindow : window.place? = some (n * 2 ^ e : ℚ) := by
      rw [Number.place?, hexact]
      rfl
    have hq := h.ordinary _ hwindow
    refine ⟨_, _, _, ?_, lapses_placed hwindow hq (mul_pos (by norm_num) hq.pos).le le_rfl⟩
    intro t ht
    obtain ⟨p, hp, -, hle⟩ := h.reach t ht
    exact ⟨p, hp, hle _ hwindow⟩
  | bottom =>
    refine absurd ?_ hpos
    show window.exact.le (0 : Number).exact = true
    rw [hexact]
    rfl
  | top => exact ⟨_, _, _, htimely, lapses_infinite hexact hlong le_rfl⟩
  | nowhere =>
    refine ⟨_, _, _, htimely, lapses_undefined ?_ hlong le_rfl⟩
    rw [Number.le_self_iff, hexact, not_not]

end Window
end TunnelView
