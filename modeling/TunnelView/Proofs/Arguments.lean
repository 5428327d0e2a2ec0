import Mathlib.Data.Nat.Notation
import TunnelView.Arguments
import TunnelView.Proofs.Documents
import TunnelView.View

/-!
# What arguments are taken

A delay that the command line takes is above zero or undefined, so it is one that a view takes.

Key definition: `Arguments.Sheet.IsTaken`.
Key theorems: `Arguments.fill_taken`, `Arguments.read_taken`, `Delays.read_taken`.
-/

namespace TunnelView

namespace Arguments

/-- A delay that is not at zero or below. -/
def Positive (x? : Option Double) : Prop := ∀ x, x? = some x → ¬x.exact.le Double.zero.exact

/-- A sheet with delays that are taken. -/
structure Sheet.IsTaken (s : Sheet) : Prop where
  window : Positive s.window
  patience : Positive s.patience

variable {sheet sheet' : Sheet}

theorem enter_taken {option : Opt} {value : String} (h : enter option value sheet = .ok sheet')
    (hs : sheet.IsTaken) : sheet'.IsTaken := by
  obtain ⟨x, hx, h⟩ := bind_eq_ok h
  have hpositive : option ≠ .stopAt → Positive (some x) := by
    intro hoption y hy hzero
    obtain rfl := Option.some.inj hy
    unfold readValue at hx
    split at hx
    · cases hx
    · split at hx
      · cases hx
      · rename_i z _ hnot
        obtain rfl := Except.ok.inj hx
        exact hnot (by simp [hzero, hoption])
  cases option with
  | window =>
    obtain rfl := Except.ok.inj h
    exact ⟨hpositive nofun, hs.patience⟩
  | patience =>
    obtain rfl := Except.ok.inj h
    exact ⟨hs.window, hpositive nofun⟩
  | stopAt =>
    obtain rfl := Except.ok.inj h
    exact ⟨hs.window, hs.patience⟩
  | help | debug =>
    obtain rfl := Except.ok.inj h
    exact hs

/-- Using up the arguments, one option or two of them at a time, takes no other delays. -/
theorem fill_taken {words : List (String × Word)} (h : fill sheet words = .ok (some sheet'))
    (hs : sheet.IsTaken) : sheet'.IsTaken := by
  fun_induction fill sheet words with
  | case1 =>
    obtain rfl := Option.some.inj (Except.ok.inj h)
    exact hs
  | case3 _ _ _ _ _ _ _ ih | case4 _ _ _ _ _ _ _ ih =>
    obtain ⟨entered, hentered, h⟩ := bind_eq_ok h
    exact ih entered h (enter_taken hentered hs)
  | case5 => cases h
  | case6 _ _ option _ _ _ _ ih =>
    obtain ⟨-, -, h⟩ := bind_eq_ok h
    by_cases hhelp : option = .help
    · rw [if_pos hhelp] at h
      cases h
    · rw [if_neg hhelp] at h
      exact ih h ⟨hs.window, hs.patience⟩
  | case2 _ _ _ ih | case7 _ _ _ _ _ ih | case8 _ _ _ _ _ ih | case9 _ _ _ _ ih
  | case10 _ _ _ _ _ ih | case11 _ _ _ _ ih => exact ih h ⟨hs.window, hs.patience⟩

variable {extras : List String} {script : String} {delays : Option Double × Option Double}
  {stopAt : Option Double} {debug : Bool}

theorem readReplay_taken {arguments : List String}
    (h : readReplay extras arguments = .ok (.replay script delays stopAt debug)) :
    Positive delays.1 ∧ Positive delays.2 := by
  obtain ⟨words, -, h⟩ := bind_eq_ok h
  obtain ⟨sheet?, hfill, h⟩ := bind_eq_ok h
  cases sheet? with
  | none => cases h
  | some sheet =>
    have hs := fill_taken hfill ⟨nofun, nofun⟩
    dsimp only at h
    split at h
    · cases h
    · split at h
      · obtain ⟨-, rfl, -, -⟩ := Request.replay.inj (Except.ok.inj h)
        exact ⟨hs.window, hs.patience⟩
      · cases h

theorem findCommand_taken {words : List (String × Word)}
    (h : findCommand extras words = .ok (.replay script delays stopAt debug)) :
    Positive delays.1 ∧ Positive delays.2 := by
  fun_induction findCommand extras words with
  | case2 _ _ _ ih => exact ih h
  | case3 =>
    obtain ⟨-, -, h⟩ := bind_eq_ok h
    cases h
  | case4 => exact readReplay_taken h
  | case1 | case5 | case6 | case7 => cases h

/-- **The delays of a command line that is taken are above zero or undefined.** -/
theorem read_taken {arguments : List String}
    (h : read arguments = .ok (.replay script delays stopAt debug)) :
    Positive delays.1 ∧ Positive delays.2 := by
  obtain ⟨words, -, h⟩ := bind_eq_ok h
  exact findCommand_taken h

end Arguments

/-! ### Delays -/

/-- The delays of a view where a command line gives such delays. -/
def Delays.taken (delays : Option Double × Option Double) : Delays Number where
  window := (delays.1.map Number.double).getD standard.window
  patience := (delays.2.map Number.double).getD standard.patience

theorem Delays.readOne_number (setting : Setting) {n : Number} (h : ¬n ≤ 0) :
    readOne setting (.number n) = .ok n := if_neg h

theorem Delays.choose_number (setting : Setting) (x? : Option Double) (n : Number) :
    (choose setting (x?.map fun x => Value.number (.double x)) (some (.number n)) :
      Except (Failure Number) Value) = .ok (.number ((x?.map Number.double).getD n)) := by
  cases x? <;> rfl

theorem Arguments.Positive.getD {x? : Option Double} (h : Positive x?) {n : Number}
    (hn : ¬n ≤ 0) : ¬(x?.map Number.double).getD n ≤ 0 := by
  cases x? with
  | none => exact hn
  | some x => exact h x rfl

/-- A view takes the delays that a command line takes. -/
theorem Delays.read_taken {delays : Option Double × Option Double}
    (hwindow : Arguments.Positive delays.1) (hpatience : Arguments.Positive delays.2) :
    read none ⟨delays.1.map fun x => .number (.double x), delays.2.map fun x => .number (.double x)⟩
        = .ok (taken delays) ∧
      ¬(taken delays).window ≤ 0 ∧ ¬(taken delays).patience ≤ 0 := by
  have hw : ¬(taken delays).window ≤ 0 := hwindow.getD (by decide)
  have hp : ¬(taken delays).patience ≤ 0 := hpatience.getD (by decide)
  refine ⟨?_, hw, hp⟩
  simp only [read, Option.getD_none, choose_number]
  show (do
    let window ← readOne .window (.number (taken delays).window)
    let patience ← readOne .patience (.number (taken delays).patience)
    return { window, patience } : Except (Failure Number) (Delays Number)) = .ok (taken delays)
  rw [readOne_number .window hw, readOne_number .patience hp]
  rfl

end TunnelView
