import Mathlib
import TunnelView.Text.Case

/-!
# Which texts are a given word in lower case

Names are words of small plain letters. A text is such a word in lower case just if it has as many
characters, each of which spells the letter in its place: the letter itself, its plain capital, or the
sign of the kelvin for a k. No other character of any script does, though the capital i with a dot
comes near: its small form begins with a plain i, and goes on.

Key definitions: `IsSmall`, `Spells`.
Key theorems: `lowerChar_eq_singleton_iff`, `lower_eq_iff`, `lower_of_small`.
-/

namespace TunnelView.Text

variable {c small : Char}

/-- Small letters of the plain alphabet. -/
def IsSmall (c : Char) : Prop := 97 ≤ c.toNat ∧ c.toNat ≤ 122

instance : DecidablePred IsSmall := fun c =>
  inferInstanceAs (Decidable (97 ≤ c.toNat ∧ c.toNat ≤ 122))

/-- Whether a character becomes this small letter in lower case. -/
def Spells (c small : Char) : Prop :=
  c = small ∨ c.toNat + 32 = small.toNat ∨ c = '\u212a' ∧ small = 'k'

/-- Capitals and their small forms are beyond the plain characters, but for the plain alphabet and
the sign of the kelvin. -/
theorem capitalRuns_beyond : ∀ run ∈ capitalRuns, run = (0x41, 0x5a, 1, 0x61) ∨
    run = (0x212a, 0x212a, 1, 0x6b) ∨ 128 ≤ run.1 ∧ 128 ≤ run.2.2.2 := by decide +kernel

/-- A character is the capital i with a dot, or in a run of capitals, or is in lower case. -/
theorem lowerChar_cases (c : Char) :
    c.toNat = 0x130 ∧ lowerChar c = ['i', '\u0307'] ∨
    (∃ first last step start, (first, last, step, start) ∈ capitalRuns ∧ first ≤ c.toNat ∧
      c.toNat ≤ last ∧ lowerChar c = [Char.ofNat (start + (c.toNat - first))]) ∨
    lowerChar c = [c] ∧ ∀ run ∈ capitalRuns, run.1 ≤ c.toNat → c.toNat ≤ run.2.1 →
      (c.toNat - run.1) % run.2.2.1 ≠ 0 := by
  unfold lowerChar
  split
  · rename_i hdot
    exact .inl ⟨hdot, rfl⟩
  · dsimp only
    split
    · rename_i first last step start hfind
      have hin := List.find?_some hfind
      simp only [Bool.and_eq_true, decide_eq_true_eq] at hin
      exact .inr (.inl ⟨first, last, step, start, List.mem_of_find?_eq_some hfind, hin.1.1, hin.1.2,
        rfl⟩)
    · rename_i hfind
      refine .inr (.inr ⟨rfl, fun run hrun hfirst hlast hstep => ?_⟩)
      have hout := List.find?_eq_none.mp hfind run hrun
      simp [hfirst, hlast, hstep] at hout

/-- Whatever is plain and no capital is in lower case. -/
theorem lowerChar_of_plain (hplain : c.toNat < 128) (h : c.toNat < 65 ∨ 90 < c.toNat) :
    lowerChar c = [c] := by
  rcases lowerChar_cases c with ⟨hdot, -⟩ | ⟨first, last, step, start, hrun, hfirst, hlast, -⟩ |
    ⟨hlower, -⟩
  · omega
  · rcases capitalRuns_beyond _ hrun with hrun | hrun | ⟨hbeyond, -⟩
    · simp only [Prod.mk.injEq] at hrun
      omega
    · simp only [Prod.mk.injEq] at hrun
      omega
    · dsimp only at hbeyond
      omega
  · exact hlower

theorem lowerChar_of_small (h : IsSmall c) : lowerChar c = [c] :=
  lowerChar_of_plain (by have := h.2; omega) (.inr (by have := h.1; omega))

theorem ofNat_ne_small {n : ℕ} (hn : 128 ≤ n) (hsmall : IsSmall small) : Char.ofNat n ≠ small := by
  rintro rfl
  obtain ⟨hlow, hhigh⟩ := hsmall
  rw [Char.toNat_ofNat] at hlow hhigh
  split at hlow
  · simp_all
    omega
  · simp_all

/-- What becomes a small letter spells it. -/
theorem spells_of_lowerChar (hsmall : IsSmall small) (h : lowerChar c = [small]) :
    Spells c small := by
  rcases lowerChar_cases c with ⟨-, hdot⟩ | ⟨first, last, step, start, hrun, hfirst, hlast, hlower⟩ |
    ⟨hlower, -⟩
  · rw [hdot] at h
    cases h
  · obtain rfl := List.singleton_inj.mp (hlower.symm.trans h)
    rcases capitalRuns_beyond _ hrun with hrun | hrun | ⟨-, hbeyond⟩
    · obtain ⟨rfl, rfl, -, rfl⟩ := by simpa only [Prod.mk.injEq] using hrun
      have hvalid : (0x61 + (c.toNat - 0x41)).isValidChar := .inl (by omega)
      refine .inr (.inl ?_)
      rw [Char.toNat_ofNat, if_pos hvalid]
      omega
    · obtain ⟨rfl, rfl, -, rfl⟩ := by simpa only [Prod.mk.injEq] using hrun
      have hkelvin : c = '\u212a' := Char.toNat_inj.mp (Nat.le_antisymm hlast hfirst)
      exact .inr (.inr ⟨hkelvin, by rw [hkelvin]; rfl⟩)
    · dsimp only at hbeyond
      exact absurd rfl (ofNat_ne_small (by omega) hsmall)
  · exact .inl (List.singleton_inj.mp (hlower.symm.trans h))

/-- A plain capital becomes its small letter. -/
theorem lowerChar_of_capital (hsmall : IsSmall small) (h : c.toNat + 32 = small.toNat) :
    lowerChar c = [small] := by
  obtain ⟨hlow, hhigh⟩ := hsmall
  have hplain : ((0x41, 0x5a, 1, 0x61) : ℕ × ℕ × ℕ × ℕ) ∈ capitalRuns := .head _
  rcases lowerChar_cases c with ⟨hdot, -⟩ | ⟨first, last, step, start, hrun, hfirst, hlast, hlower⟩ |
    ⟨-, hout⟩
  · omega
  · rcases capitalRuns_beyond _ hrun with hrun | hrun | ⟨hbeyond, -⟩
    · obtain ⟨rfl, rfl, -, rfl⟩ := by simpa only [Prod.mk.injEq] using hrun
      have hletter : 0x61 + (c.toNat - 0x41) = small.toNat := by omega
      rw [hlower, hletter, Char.ofNat_toNat]
    · simp only [Prod.mk.injEq] at hrun
      omega
    · dsimp only at hbeyond
      omega
  · have hnone := hout _ hplain (by dsimp only; omega) (by dsimp only; omega)
    exact absurd (Nat.mod_one _) hnone

/-- The characters that become a small letter are those that spell it. -/
theorem lowerChar_eq_singleton_iff (hsmall : IsSmall small) :
    lowerChar c = [small] ↔ Spells c small := by
  constructor
  · exact spells_of_lowerChar hsmall
  · rintro (rfl | hcapital | ⟨rfl, rfl⟩)
    · exact lowerChar_of_small hsmall
    · exact lowerChar_of_capital hsmall hcapital
    · decide +kernel

/-- Characters become a word of small letters just if they spell it. -/
theorem flatMap_lowerChar_eq_iff {cs word : List Char} (hword : ∀ c ∈ word, IsSmall c) :
    cs.flatMap lowerChar = word ↔ List.Forall₂ Spells cs word := by
  induction cs generalizing word with
  | nil => rw [List.flatMap_nil, List.forall₂_nil_left_iff, eq_comm]
  | cons c cs ih =>
    rw [List.flatMap_cons]
    obtain ⟨-, hdot⟩ | ⟨x, hx⟩ : c.toNat = 0x130 ∧ lowerChar c = ['i', '\u0307'] ∨
        ∃ x, lowerChar c = [x] := by
      rcases lowerChar_cases c with hdot | ⟨_, _, _, _, -, -, -, hlower⟩ | ⟨hlower, -⟩
      · exact .inl hdot
      · exact .inr ⟨_, hlower⟩
      · exact .inr ⟨_, hlower⟩
    · constructor
      · intro h
        rw [hdot] at h
        have hmark := hword '\u0307' (by simp [← h])
        exact absurd hmark (by decide)
      · intro h
        cases h with
        | cons hspells _ =>
          have hlower := (lowerChar_eq_singleton_iff (hword _ (.head _))).mpr hspells
          rw [hdot] at hlower
          cases hlower
    · rw [hx, List.singleton_append]
      cases word with
      | nil => simp
      | cons small word =>
        obtain ⟨hsmall, hrest⟩ := List.forall_mem_cons.mp hword
        rw [List.cons.injEq, List.forall₂_cons, ih hrest, ← lowerChar_eq_singleton_iff hsmall, hx,
          List.singleton_inj]

/-- **A text is a word in lower case just if its characters spell the word's letters.** -/
theorem lower_eq_iff {s word : String} (hword : ∀ c ∈ word.toList, IsSmall c) :
    lower s = word ↔ List.Forall₂ Spells s.toList word.toList := by
  rw [lower, ← flatMap_lowerChar_eq_iff hword, ← String.toList_inj, String.toList_ofList]

/-- A text of small letters is in lower case. -/
theorem lower_of_small {s : String} (h : ∀ c ∈ s.toList, IsSmall c) : lower s = s :=
  (lower_eq_iff h).mpr (List.forall₂_same.mpr fun _ _ => .inl rfl)

end TunnelView.Text
