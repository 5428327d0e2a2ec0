import TunnelView.Proofs.Number.Figures
import TunnelView.Table.Cell

/-!
# What is written in a cell

A column is of the most general kind that a cell of it has by itself. Outside columns of doubles a
text is written as it is, but for a coloured integer. In a column of doubles every text that can be
read as one is written anew, by the brief text of that double: `1.50` becomes `1.5`. Whatever is
written has the characters of the value, figures, and no others.

Key definitions: `Cell.ReadAsDoubles`, `Cell.Reworded`, `Cell.Altered`.
Key theorems: `Cell.columnKind_eq_iff`, `Cell.mem_write`, `Cell.write_of_not_altered`,
`Cell.altered_iff_of_uncoloured`, `Cell.write_anew`.
-/

namespace TunnelView

/-! ### Texts without escapes -/

namespace Text.Escape

variable {cs : List Char}

theorem next?_of_ne {c : Char} (h : c ≠ lead) (rest : List Char) : next? (c :: rest) = none := by
  simp [next?, control?, link?, behind?, h.symm]

theorem occurs_of_not_mem (h : lead ∉ cs) : occurs cs = false := by
  induction cs with
  | nil => rfl
  | cons c rest ih =>
    rw [List.mem_cons, not_or] at h
    rw [occurs, next?_of_ne (Ne.symm h.1), ih h.2]
    rfl

theorem stripWithin_of_not_mem (h : lead ∉ cs) : stripWithin cs.length cs = cs := by
  induction cs with
  | nil => rfl
  | cons c rest ih =>
    rw [List.mem_cons, not_or] at h
    rw [List.length_cons, stripWithin, next?_of_ne (Ne.symm h.1)]
    exact congrArg (c :: ·) (ih h.2)

end Text.Escape

/-! ### What is left of a text that is read as an integer

A character that is no digit, sign, blank or underscore is still there when the integer is read, and
fails it. -/

section Reading

variable {s : String} {c : Char} {cs ds : List Char}

theorem Text.mem_dropWhile {p : Char → Bool} (hp : p c = false) (hc : c ∈ cs) :
    c ∈ cs.dropWhile p := by
  rw [← List.takeWhile_append_dropWhile (p := p) (l := cs), List.mem_append] at hc
  rcases hc with hfront | hrest
  · exact absurd (List.mem_takeWhile_imp hfront) (by simp [hp])
  · exact hrest

namespace Numeral

theorem mem_plain (hpadding : isPadding c = false) (hdigit : Text.digitValue? c = none)
    (hc : c ∈ s.toList) : c ∈ plain s := by
  have htrimmed : c ∈ ((s.toList.dropWhile isPadding).reverse.dropWhile isPadding).reverse :=
    List.mem_reverse.mpr (Text.mem_dropWhile hpadding
      (List.mem_reverse.mpr (Text.mem_dropWhile hpadding hc)))
  exact List.mem_map.mpr ⟨c, htrimmed, by rw [hdigit]⟩

theorem mem_of_joinDigits {afterDigit : Bool} (h : joinDigits afterDigit cs = some ds)
    (hne : c ≠ '_') (hc : c ∈ cs) : c ∈ ds := by
  induction cs generalizing afterDigit ds with
  | nil => cases hc
  | cons first rest ih =>
    rw [joinDigits] at h
    split at h
    · rename_i hfirst
      split at h
      · rcases List.mem_cons.mp hc with rfl | hrest
        · exact absurd hfirst hne
        · exact ih h hrest
      · cases h
    · obtain ⟨ds, hjoin, rfl⟩ := Option.map_eq_some_iff.mp h
      rcases List.mem_cons.mp hc with rfl | hrest
      · exact List.mem_cons_self
      · exact List.mem_cons_of_mem _ (ih hjoin hrest)

theorem mem_signed (hminus : c ≠ '-') (hplus : c ≠ '+') (hc : c ∈ cs) : c ∈ (signed cs).2 := by
  unfold signed
  split
  · exact (List.mem_cons.mp hc).resolve_left hminus
  · exact (List.mem_cons.mp hc).resolve_left hplus
  · exact hc

end Numeral

namespace Cell

theorem bracket_not_mem_of_isIntegerText (h : isIntegerText s = true) : '[' ∉ s.toList := by
  intro hbracket
  have hplain := Numeral.mem_plain (s := s) (by decide) (by decide) hbracket
  obtain ⟨n, hn⟩ := Option.isSome_iff_exists.mp h
  obtain ⟨digits, hjoin, hread⟩ := Option.bind_eq_some_iff.mp hn
  have hdigits := Numeral.mem_signed (by decide) (by decide)
    (Numeral.mem_of_joinDigits hjoin (by decide) hplain)
  have hall : (Numeral.signed digits).2.all Char.isDigit = false :=
    List.all_eq_false.mpr ⟨'[', hdigits, by decide⟩
  simp [hall] at hread

theorem isEnd_of_mem (hne : c ≠ '\n') (hc : c ∈ cs) : isEnd cs = false := by
  unfold isEnd
  split
  · cases hc
  · exact absurd (List.mem_singleton.mp hc) hne
  · rfl

theorem isFraction_of_mem (least : ℕ) (hdigit : c.isDigit = false) (hpoint : c ≠ '.')
    (hne : c ≠ '\n') (hc : c ∈ cs) : isFraction least cs = false := by
  unfold isFraction
  split
  · have hrest := (List.mem_cons.mp hc).resolve_left hpoint
    rw [isEnd_of_mem hne (Text.mem_dropWhile hdigit hrest), Bool.and_false]
  · rfl

theorem mem_skipGroups (hdigit : c.isDigit = false) (hcomma : c ≠ ',') (hc : c ∈ cs) :
    c ∈ skipGroups cs := by
  fun_induction skipGroups cs with
  | case1 x y z rest hdigits ih =>
    simp only [Bool.and_eq_true] at hdigits
    simp only [List.mem_cons] at hc
    rcases hc with rfl | rfl | rfl | rfl | hrest
    · exact absurd rfl hcomma
    · simp [hdigits] at hdigit
    · simp [hdigits] at hdigit
    · simp [hdigits] at hdigit
    · exact ih hrest
  | case2 => exact hc
  | case3 => exact hc

theorem bracket_not_mem_of_isGrouped (h : isGrouped s = true) : '[' ∉ s.toList := by
  intro hbracket
  have hdigits := Numeral.mem_signed (by decide) (by decide) hbracket
  have hrest := mem_skipGroups (by decide) (by decide)
    (Text.mem_dropWhile (p := Char.isDigit) (by decide) hdigits)
  have hwhole := isEnd_of_mem (by decide) hrest
  have hpoint := isFraction_of_mem 0 (by decide) (by decide) (by decide) hrest
  have hend := isEnd_of_mem (by decide) hbracket
  have hfraction := isFraction_of_mem 1 (by decide) (by decide) (by decide) hbracket
  simp [isGrouped, hwhole, hpoint, hend, hfraction] at h

/-- No bracket is in a text that counts as a truth value or as an integer. -/
theorem bracket_not_mem_of_textKind (h : (textKind s).rank ≤ Kind.rank .integer) :
    '[' ∉ s.toList := by
  unfold textKind at h
  split at h
  · rename_i hflag
    rcases hflag with rfl | rfl <;> simp
  · split at h
    · rename_i hinteger
      rw [Bool.or_eq_true, Bool.and_eq_true] at hinteger
      rcases hinteger with hint | ⟨hgrouped, -⟩
      · exact bracket_not_mem_of_isIntegerText hint
      · exact bracket_not_mem_of_isGrouped hgrouped
    · split at h <;> simp [Kind.rank] at h

end Cell
end Reading

namespace Cell

open Text (IsFigure Figures)

variable {s : String} {c : Char} {cs colour number rest : List Char} {v : Value} {kind : Kind}
  {escapes : Bool} {column : List Value}

theorem shown_of_not_mem (h : Text.Escape.lead ∉ s.toList) : shown s = s := by
  rw [shown, Text.Escape.strip, Text.Escape.stripWithin_of_not_mem h, String.ofList_toList]

/-! ### The kind of a column -/

theorem Kind.rank_join (a b : Kind) : (a.join b).rank = max a.rank b.rank := by
  unfold join
  split <;> omega

theorem Kind.join_eq_or (a b : Kind) : a.join b = a ∨ a.join b = b := by
  unfold join
  split
  · exact .inr rfl
  · exact .inl rfl

theorem Kind.eq_of_rank {a b : Kind} (h : a.rank = b.rank) : a = b := by
  cases a <;> cases b <;> first | rfl | cases h

/-- Kinds joined from one on are joined to the most general of all. -/
theorem foldl_join (kinds : List Kind) (kind : Kind) :
    (∀ k ∈ kind :: kinds, k.rank ≤ (kinds.foldl Kind.join kind).rank) ∧
      kinds.foldl Kind.join kind ∈ kind :: kinds := by
  induction kinds generalizing kind with
  | nil => simp
  | cons first kinds ih =>
    obtain ⟨hle, hmem⟩ := ih (kind.join first)
    have hjoin := kind.rank_join first
    rw [List.foldl_cons]
    constructor
    · intro k hk
      have hstart := hle (kind.join first) List.mem_cons_self
      rw [List.mem_cons, List.mem_cons] at hk
      rcases hk with rfl | rfl | hk
      · omega
      · omega
      · exact hle k (List.mem_cons_of_mem _ hk)
    · rcases List.mem_cons.mp hmem with hfold | hmem
      · rw [hfold]
        rcases kind.join_eq_or first with h | h <;> simp [h]
      · exact List.mem_cons_of_mem _ (List.mem_cons_of_mem _ hmem)

theorem columnKind_eq_foldl (column : List Value) :
    columnKind column = (column.filterMap kindOf?).foldl Kind.join .flag := by
  rw [columnKind, List.foldl_filterMap]
  congr 1
  funext kind v
  cases kindOf? v <;> rfl

/-- **A column is of the most general kind of its cells**, and one of truth values where no cell
says anything. -/
theorem columnKind_eq_iff : columnKind column = kind ↔
    (∀ v ∈ column, ∀ k, kindOf? v = some k → k.rank ≤ kind.rank) ∧
      (kind = .flag ∨ ∃ v ∈ column, kindOf? v = some kind) := by
  have hmem : ∀ k, k ∈ column.filterMap kindOf? ↔ ∃ v ∈ column, kindOf? v = some k := fun k =>
    List.mem_filterMap
  obtain ⟨hle, hfold⟩ := foldl_join (column.filterMap kindOf?) .flag
  rw [← columnKind_eq_foldl] at hle hfold
  constructor
  · rintro rfl
    refine ⟨fun v hv k hk => hle k (List.mem_cons_of_mem _ ((hmem k).mpr ⟨v, hv, hk⟩)), ?_⟩
    exact (List.mem_cons.mp hfold).imp_right (hmem _).mp
  · rintro ⟨hbound, hreached⟩
    have hbelow : (columnKind column).rank ≤ kind.rank := by
      rcases List.mem_cons.mp hfold with hflag | hkind
      · rw [hflag]
        exact Nat.zero_le _
      · obtain ⟨v, hv, hk⟩ := (hmem _).mp hkind
        exact hbound v hv _ hk
    have habove : kind.rank ≤ (columnKind column).rank := by
      rcases hreached with rfl | hreached
      · exact Nat.zero_le _
      · exact hle kind (List.mem_cons_of_mem _ ((hmem kind).mpr hreached))
    exact Kind.eq_of_rank (le_antisymm hbelow habove)

/-- Whether a column is read as doubles: no cell of it looks like anything but a number or a truth
value, and one looks like a number that is no integer. -/
def ReadAsDoubles (column : List Value) : Prop :=
  (∀ v ∈ column, kindOf? v ≠ some .text) ∧ ∃ v ∈ column, kindOf? v = some .double

theorem columnKind_eq_double_iff : columnKind column = .double ↔ ReadAsDoubles column := by
  rw [columnKind_eq_iff, ReadAsDoubles, or_iff_right Kind.noConfusion]
  refine and_congr_left fun _ => forall₂_congr fun v _ => ?_
  constructor
  · intro hbound htext
    exact absurd (hbound .text htext) (by decide)
  · rintro hne (_ | _ | _ | _) hk
    · decide
    · decide
    · decide
    · exact absurd hk hne

/-- A column with a cell that is no number by itself is one of texts. -/
theorem columnKind_of_text (hv : v ∈ column) (h : kindOf? v = some .text) :
    columnKind column = .text := by
  refine columnKind_eq_iff.mpr ⟨fun _ _ k _ => ?_, .inr ⟨v, hv, h⟩⟩
  cases k <;> decide

/-! ### Coloured integers -/

theorem coloured?_eq_append (h : coloured? cs = some (colour, number, rest)) :
    cs = colour ++ number ++ rest ∧ '[' ∈ colour := by
  have hcut : ∀ (p : Char → Bool) (l : List Char),
      l.takeWhile p ++ l.drop (l.takeWhile p).length = l :=
    fun p l => List.prefix_iff_eq_append.mp (List.takeWhile_prefix p)
  cases cs with
  | nil => cases h
  | cons c tail =>
    simp only [coloured?] at h
    split at h
    · rename_i more hmore
      split at h
      · obtain ⟨rfl, rfl, rfl⟩ := h
        have htail := hcut isHexDigit tail
        rw [hmore] at htail
        refine ⟨?_, by simp⟩
        simp only [List.cons_append, List.append_assoc, ← List.drop_drop, hcut, htail]
      · cases h
    · cases h

theorem firstColoured?_eq_some (h : firstColoured? cs = some (colour, number, rest)) :
    colour ++ number ++ rest <:+ cs ∧ '[' ∈ colour := by
  induction cs with
  | nil => cases h
  | cons c tail ih =>
    rw [firstColoured?, Option.or_eq_some_iff] at h
    rcases h with hhere | ⟨-, hlater⟩
    · obtain ⟨heq, hbracket⟩ := coloured?_eq_append hhere
      exact ⟨heq ▸ List.suffix_refl _, hbracket⟩
    · obtain ⟨hsuffix, hbracket⟩ := ih hlater
      exact ⟨hsuffix.trans (List.suffix_cons c tail), hbracket⟩

theorem writeInteger_of_not_mem (h : '[' ∉ s.toList) : writeInteger s = s := by
  unfold writeInteger
  split
  · rename_i colour number rest hfirst
    obtain ⟨hsuffix, hbracket⟩ := firstColoured?_eq_some hfirst
    have hmem : '[' ∈ s.toList := hsuffix.subset (by simp [hbracket])
    exact absurd hmem h
  · rfl

theorem mem_writeInteger (hc : c ∈ (writeInteger s).toList) : c ∈ s.toList ∨ IsFigure c := by
  unfold writeInteger at hc
  split at hc
  · rename_i colour number rest hfirst
    split at hc
    · have hsuffix := (firstColoured?_eq_some hfirst).1
      rw [String.toList_ofList, List.mem_append, List.mem_append] at hc
      rcases hc with (hcolour | hdigit) | hrest
      · exact .inl (hsuffix.subset (by simp [hcolour]))
      · exact .inr (Text.figures_repr _ c hdigit)
      · exact .inl (hsuffix.subset (by simp [hrest]))
    · exact .inl hc
  · exact .inl hc

/-! ### Numbers written anew -/

/-- What a column of doubles reads of a text: in a table with escapes what is shown of it, else all
of it but its commas. -/
def readText (escapes : Bool) (s : String) : String :=
  if escapes then shown s else String.ofList (s.toList.filter (· != ','))

/-- Whether a column of doubles puts another text in place of one: it reads a double that has
another brief text. -/
def Reworded (escapes : Bool) (s : String) : Prop :=
  ∃ x, Numeral.double? (readText escapes s) = some x ∧
    x.briefText ≠ if escapes then shown s else s

/-- Whether a column of a kind writes another text in place of one: of doubles, because it reads
a double, of integers, because it drops the zeros in front of a coloured one. -/
def Altered (escapes : Bool) (kind : Kind) (s : String) : Prop :=
  kind = .double ∧ Reworded escapes s ∨ kind = .integer ∧ writeInteger s ≠ s

theorem mem_replaceWithin {old new : List Char} {n : ℕ} (hc : c ∈ replaceWithin old new n cs) :
    c ∈ new ∨ c ∈ cs := by
  induction n generalizing cs with
  | zero => exact .inr hc
  | succ n ih =>
    cases cs with
    | nil => cases hc
    | cons first rest =>
      rw [replaceWithin] at hc
      split at hc
      · rcases List.mem_append.mp hc with hnew | hlater
        · exact .inl hnew
        · exact (ih hlater).imp_right List.mem_of_mem_drop
      · rcases List.mem_cons.mp hc with rfl | hlater
        · exact .inr List.mem_cons_self
        · exact (ih hlater).imp_right (List.mem_cons_of_mem _)

theorem replaceWithin_self (old : List Char) (n : ℕ) (cs : List Char) :
    replaceWithin old old n cs = cs := by
  induction n generalizing cs with
  | zero => rfl
  | succ n ih =>
    cases cs with
    | nil => rfl
    | cons first rest =>
      rw [replaceWithin]
      split
      · rename_i hprefix
        rw [ih]
        exact List.prefix_iff_eq_append.mp (List.isPrefixOf_iff_prefix.mp hprefix)
      · rw [ih]

theorem mem_writeDouble (hc : c ∈ (writeDouble s).toList) : c ∈ s.toList ∨ IsFigure c := by
  unfold writeDouble at hc
  split at hc
  · exact .inr (Double.figures_briefText _ c hc)
  · exact .inl hc

theorem mem_writeColouredDouble (hc : c ∈ (writeColouredDouble s).toList) :
    c ∈ s.toList ∨ IsFigure c := by
  unfold writeColouredDouble at hc
  split at hc
  · rw [replaceAll, String.toList_ofList] at hc
    rcases mem_replaceWithin hc with hnew | hs
    · exact .inr (Double.figures_briefText _ c hnew)
    · exact .inl hs
  · exact .inl hc

theorem writeDouble_of_not_reworded (h : ¬Reworded false s) : writeDouble s = s := by
  unfold writeDouble
  split
  · rename_i x hx
    by_contra hne
    exact h ⟨x, hx, hne⟩
  · rfl

theorem writeColouredDouble_of_not_reworded (h : ¬Reworded true s) : writeColouredDouble s = s := by
  unfold writeColouredDouble
  split
  · rename_i x hx
    have hsame : x.briefText = shown s := by
      by_contra hne
      exact h ⟨x, hx, hne⟩
    rw [hsame, replaceAll, replaceWithin_self, String.ofList_toList]
  · rfl

/-! ### All cells -/

section Written

variable (h : s ≠ "")
include h

theorem write_coloured_double : write true .double (.text s) = writeColouredDouble s := by
  simp [write]

theorem write_double : write false .double (.text s) = writeDouble s := by
  simp [write]

theorem write_integer : write escapes .integer (.text s) = writeInteger s := by
  simp [write]

theorem write_flag_or_text (hkind : kind.isNumeric = false) : write escapes kind (.text s) = s := by
  cases kind with
  | flag => simp [write, h, Value.display]
  | text => simp [write, h, Value.display]
  | integer => cases hkind
  | double => cases hkind

theorem mem_write_text (hc : c ∈ (write escapes kind (.text s)).toList) :
    c ∈ s.toList ∨ IsFigure c := by
  by_cases hkind : kind.isNumeric
  · cases kind with
    | double =>
      cases escapes with
      | true =>
        rw [write_coloured_double h] at hc
        exact mem_writeColouredDouble hc
      | false =>
        rw [write_double h] at hc
        exact mem_writeDouble hc
    | integer =>
      rw [write_integer h] at hc
      exact mem_writeInteger hc
    | flag => cases hkind
    | text => cases hkind
  · rw [write_flag_or_text h (Bool.eq_false_iff.mpr hkind)] at hc
    exact .inl hc

theorem write_of_not_altered (haltered : ¬Altered escapes kind s) :
    write escapes kind (.text s) = s := by
  rw [Altered, not_or, not_and, not_and, not_not] at haltered
  obtain ⟨hdouble, hinteger⟩ := haltered
  cases kind with
  | double =>
    cases escapes with
    | true => rw [write_coloured_double h, writeColouredDouble_of_not_reworded (hdouble rfl)]
    | false => rw [write_double h, writeDouble_of_not_reworded (hdouble rfl)]
  | integer => rw [write_integer h, hinteger rfl]
  | flag => exact write_flag_or_text h rfl
  | text => exact write_flag_or_text h rfl

/-- In a table without escapes a column of doubles writes what it reads by its brief text. -/
theorem write_anew {x : Double} (hx : Numeral.double? (readText false s) = some x) :
    write false .double (.text s) = x.briefText := by
  rw [write_double h, writeDouble]
  rw [show Numeral.double? (String.ofList (s.toList.filter (· != ','))) = some x from hx]

/-- Integers without escapes are written as they are. -/
theorem altered_iff_of_uncoloured (hs : .text s ∈ column) (hlead : Text.Escape.lead ∉ s.toList) :
    Altered escapes (columnKind column) s ↔ ReadAsDoubles column ∧ Reworded escapes s := by
  rw [Altered, or_iff_left, columnKind_eq_double_iff]
  rintro ⟨hkind, hne⟩
  have hown : kindOf? (.text s) = some (textKind s) := by
    rw [kindOf?, shown_of_not_mem hlead, if_neg (by simpa using h)]
  have hrank := (columnKind_eq_iff.mp hkind).1 _ hs _ hown
  exact hne (writeInteger_of_not_mem (bracket_not_mem_of_textKind hrank))

end Written

/-- Nothing is written but what the value shows, figures, and the mark of a missing value. -/
theorem mem_write (hc : c ∈ (write escapes kind v).toList) :
    c ∈ v.display.toList ∨ IsFigure c ∨ c ∈ missing.toList := by
  cases v with
  | null => exact .inr (.inr hc)
  | text s =>
    by_cases hs : s = ""
    · subst hs
      cases kind <;> cases hc
    · exact (mem_write_text hs hc).imp_right .inl
  | bool b =>
    cases kind with
    | double => exact .inr (.inl (Double.figures_briefText _ c hc))
    | _ => exact .inl hc
  | number n =>
    cases kind with
    | double => exact .inr (.inl (Double.figures_briefText _ c hc))
    | _ => exact .inl hc
  | list items => cases kind <;> exact .inl hc
  | object fields => cases kind <;> exact .inl hc

end Cell
end TunnelView
