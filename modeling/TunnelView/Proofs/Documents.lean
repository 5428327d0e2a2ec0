import Mathlib.Tactic.Ring
import TunnelView.Json

/-!
# Values of documents have texts

A value has no text if there is an integer in it of more digits than are written. The reader takes no
integer of more digits either, so whatever stands in a document has a text, down to the last field.
The reader is three functions that call each other with less and less fuel, and the induction is on
that.

Key theorems: `Numeral.ofDigits_lt`, `Value.hasText_get`, `Json.hasText_of_document`.
-/

namespace TunnelView

theorem bind_eq_ok {ε α β : Type} {x : Except ε α} {f : α → Except ε β} {b : β}
    (h : (x >>= f) = .ok b) : ∃ a, x = .ok a ∧ f a = .ok b := by
  cases x with
  | error e => cases h
  | ok a => exact ⟨a, rfl, h⟩

/-! ### Numbers -/

namespace Numeral

theorem foldl_digits_lt {cs : List Char} (h : ∀ c ∈ cs, c.isDigit = true) (n : Nat) :
    cs.foldl (fun n c => n * 10 + (c.toNat - 0x30)) n < (n + 1) * 10 ^ cs.length := by
  induction cs generalizing n with
  | nil => simp
  | cons c cs ih =>
    obtain ⟨hc, hcs⟩ := List.forall_mem_cons.mp h
    have hdigit : c.toNat - 0x30 ≤ 9 := by
      have hle : c.toNat ≤ 0x39 := by
        simp only [Char.isDigit, Bool.and_eq_true, decide_eq_true_eq] at hc
        exact hc.2
      omega
    calc (c :: cs).foldl (fun n c => n * 10 + (c.toNat - 0x30)) n
        < (n * 10 + (c.toNat - 0x30) + 1) * 10 ^ cs.length := ih hcs _
      _ ≤ (n * 10 + 10) * 10 ^ cs.length := Nat.mul_le_mul_right _ (by omega)
      _ = (n + 1) * 10 ^ (c :: cs).length := by rw [List.length_cons, Nat.pow_succ]; ring

/-- So many digits stand for less than that power of ten. -/
theorem ofDigits_lt {cs : List Char} (h : ∀ c ∈ cs, c.isDigit = true) :
    ofDigits cs < 10 ^ cs.length := by
  simpa [ofDigits] using foldl_digits_lt h 0

end Numeral

theorem Number.hasText_int {n : Int} :
    (Number.int n).hasText = true ↔ n.natAbs < 10 ^ Numeral.longestInteger := by
  rw [hasText, decide_eq_true_eq, Nat.pow_eq]

/-! ### Values -/

namespace Value

variable {v : Value} {fields : List (String × Value)} {key : String}

theorem hasText_object : (object fields).hasText = fieldsHaveText fields := by rw [hasText]

theorem fieldsHaveText_iff :
    fieldsHaveText fields = true ↔ ∀ field ∈ fields, field.2.hasText = true := by
  induction fields with
  | nil => simp [fieldsHaveText]
  | cons field rest ih =>
    rw [fieldsHaveText, Bool.and_eq_true, ih, List.forall_mem_cons]

theorem allHaveText_iff {items : List Value} :
    allHaveText items = true ↔ ∀ item ∈ items, item.hasText = true := by
  induction items with
  | nil => simp [allHaveText]
  | cons item rest ih => rw [allHaveText, Bool.and_eq_true, ih, List.forall_mem_cons]

theorem hasText_of_mem {items : List Value} (h : (list items).hasText = true) :
    ∀ item ∈ items, item.hasText = true := by
  rw [hasText, allHaveText_iff] at h
  exact h

theorem hasText_find? (h : (object fields).hasText = true) (hv : find? fields key = some v) :
    v.hasText = true := by
  rw [hasText_object, fieldsHaveText_iff] at h
  obtain ⟨field, hfield, rfl⟩ := Option.map_eq_some_iff.mp hv
  exact h field (List.mem_of_find?_eq_some hfield)

/-- What stands in an object with a text has a text. -/
theorem hasText_get (h : (object fields).hasText = true) (key : String) :
    (get fields key).hasText = true := by
  rw [get]
  cases hv : find? fields key with
  | none => rfl
  | some v => exact hasText_find? h hv

theorem fieldsHaveText_insertField (h : fieldsHaveText fields = true) (hv : v.hasText = true) :
    fieldsHaveText (insertField fields key v) = true := by
  rw [fieldsHaveText_iff] at h ⊢
  unfold insertField
  split
  · rintro field hfield
    obtain ⟨old, hold, rfl⟩ := List.mem_map.mp hfield
    split
    · exact hv
    · exact h old hold
  · intro field hfield
    rcases List.mem_append.mp hfield with hfield | hfield
    · exact h field hfield
    · obtain rfl := List.mem_singleton.mp hfield
      exact hv

end Value

/-! ### Documents -/

namespace Json

variable {input input' : Input} {n : Number}

theorem isDigit_wholeDigits (rest : List Char) : ∀ c ∈ wholeDigits rest, c.isDigit = true := by
  intro c hc
  unfold wholeDigits at hc
  split at hc
  · obtain rfl := List.mem_singleton.mp hc
    rfl
  · exact List.all_eq_true.mp (List.all_takeWhile ..) c hc

theorem hasText_words : ∀ word ∈ words, word.2.hasText = true := by decide

theorem hasText_unsigned {negative : Bool} (h : unsigned negative input = .ok (n, input')) :
    n.hasText = true := by
  unfold unsigned at h
  extract_lets whole behind places behind mark behind n e at h
  split at h
  · split at h
    · cases h
    · rename_i hshort
      obtain ⟨rfl, -⟩ := Prod.mk.inj (Except.ok.inj h)
      have hlt := Numeral.ofDigits_lt (isDigit_wholeDigits input.rest)
      have hle := Nat.pow_le_pow_right (n := 10) (by decide) (Nat.not_lt.mp hshort)
      have hsize : (if negative then -n else n).natAbs = Numeral.ofDigits whole := by
        cases negative
        · rfl
        · exact Int.natAbs_neg n
      exact Number.hasText_int.mpr (hsize ▸ hlt.trans_le hle)
  · obtain ⟨rfl, -⟩ := Prod.mk.inj (Except.ok.inj h)
    rfl

theorem hasText_number (h : number input = .ok (n, input')) : n.hasText = true := by
  unfold number at h
  dsimp only at h
  generalize (if input.rest.head? = some '-' then input.skip 1 else input) = start at h
  split at h
  · cases h
  · exact hasText_unsigned h

/-- What is read with so much fuel has a text. -/
structure Legible (fuel : Nat) : Prop where
  value : ∀ {room input v input'}, Json.value room fuel input = .ok (v, input') →
    v.hasText = true
  items : ∀ {room input vs input'}, Json.items room fuel input = .ok (vs, input') →
    Value.allHaveText vs = true
  fields : ∀ {room input done fs input'}, Value.fieldsHaveText done = true →
    Json.fields room fuel input done = .ok (fs, input') → Value.fieldsHaveText fs = true

namespace Legible

theorem zero : Legible 0 := by
  refine ⟨?_, ?_, ?_⟩
  all_goals
    intros
    contradiction

variable {fuel room : Nat}

theorem value_succ (ih : Legible fuel) {v : Value}
    (h : Json.value room (fuel + 1) input = .ok (v, input')) : v.hasText = true := by
  unfold Json.value at h
  split at h
  · obtain ⟨⟨s, behind⟩, -, h⟩ := bind_eq_ok h
    obtain ⟨rfl, -⟩ := Prod.mk.inj (Except.ok.inj h)
    rfl
  · split at h
    · cases h
    · dsimp only at h
      split at h
      · obtain ⟨rfl, -⟩ := Prod.mk.inj (Except.ok.inj h)
        rfl
      · obtain ⟨⟨vs, behind⟩, hvs, h⟩ := bind_eq_ok h
        obtain ⟨rfl, -⟩ := Prod.mk.inj (Except.ok.inj h)
        rw [Value.hasText]
        exact ih.items hvs
  · split at h
    · cases h
    · dsimp only at h
      split at h
      · obtain ⟨rfl, -⟩ := Prod.mk.inj (Except.ok.inj h)
        rfl
      · obtain ⟨⟨fs, behind⟩, hfs, h⟩ := bind_eq_ok h
        obtain ⟨rfl, -⟩ := Prod.mk.inj (Except.ok.inj h)
        rw [Value.hasText]
        exact ih.fields rfl hfs
  · split at h
    · rename_i word hword
      obtain ⟨rfl, -⟩ := Prod.mk.inj (Except.ok.inj h)
      exact hasText_words _ (List.mem_of_find?_eq_some hword)
    · obtain ⟨⟨n, behind⟩, hn, h⟩ := bind_eq_ok h
      obtain ⟨rfl, -⟩ := Prod.mk.inj (Except.ok.inj h)
      rw [Value.hasText]
      exact hasText_number hn

theorem items_succ (ih : Legible fuel) {vs : List Value}
    (h : Json.items room (fuel + 1) input = .ok (vs, input')) : Value.allHaveText vs = true := by
  unfold Json.items at h
  obtain ⟨⟨v, behind⟩, hv, h⟩ := bind_eq_ok h
  dsimp only at h
  split at h
  · obtain ⟨rfl, -⟩ := Prod.mk.inj (Except.ok.inj h)
    rw [Value.allHaveText, ih.value hv]
    rfl
  · obtain ⟨⟨more, behind⟩, hmore, h⟩ := bind_eq_ok h
    obtain ⟨rfl, -⟩ := Prod.mk.inj (Except.ok.inj h)
    rw [Value.allHaveText, ih.value hv, ih.items hmore]
    rfl
  · cases h

theorem fields_succ (ih : Legible fuel) {done fs : List (String × Value)}
    (hdone : Value.fieldsHaveText done = true)
    (h : Json.fields room (fuel + 1) input done = .ok (fs, input')) :
    Value.fieldsHaveText fs = true := by
  unfold Json.fields at h
  split at h
  · obtain ⟨⟨key, behind⟩, -, h⟩ := bind_eq_ok h
    dsimp only at h
    split at h
    · obtain ⟨⟨v, behind⟩, hv, h⟩ := bind_eq_ok h
      have hput : Value.fieldsHaveText (insertField done key v) = true :=
        Value.fieldsHaveText_insertField hdone (ih.value hv)
      dsimp only at h
      split at h
      · obtain ⟨rfl, -⟩ := Prod.mk.inj (Except.ok.inj h)
        exact hput
      · exact ih.fields hput h
      · cases h
    · cases h
  · cases h

end Legible

theorem legible (fuel : Nat) : Legible fuel := by
  induction fuel with
  | zero => exact .zero
  | succ fuel ih => exact ⟨ih.value_succ, ih.items_succ, ih.fields_succ⟩

/-- **What a document holds has a text.** -/
theorem hasText_of_document {text : List Char} {v : Value} {half? : Option Nat}
    (h : document text = .ok (v, half?)) : v.hasText = true := by
  unfold document at h
  split at h
  · cases h
  · dsimp only at h
    obtain ⟨⟨v', behind⟩, hv, h⟩ := bind_eq_ok h
    dsimp only at h
    split at h
    · obtain ⟨rfl, -⟩ := Prod.mk.inj (Except.ok.inj h)
      exact (legible _).value hv
    · cases h

theorem read_eq_ok {text : List Char} {v : Value} :
    read text = .ok v ↔ document text = .ok (v, none) := by
  unfold read
  split <;> simp_all

end Json
end TunnelView
