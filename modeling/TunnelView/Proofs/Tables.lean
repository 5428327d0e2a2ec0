import TunnelView.Proofs.Tables.Cells
import TunnelView.Table

/-!
# Reading a printed table

A table is read line by line. The lines that begin with the character between cells are those of
cells, the first of them holds the headers, and what stands between two such characters, blanks
aside, is a cell. Where no header and no value has a line end or that character in it, one finds all
values again, each as its column writes it: one line for each row, in order.

Key definitions: `Table.body`, `Table.Column.Plain`, `Table.Column.shown`.
Key theorems: `Table.cellsOf_line`, `Table.body_printed`, `Table.render_plain`.
-/

namespace TunnelView

/-! ### Blanks at the ends -/

namespace Text

variable {cs blanks : List Char}

theorem trimBlanks_append_left (h : ∀ c ∈ blanks, isBlank c = true) (cs : List Char) :
    trimBlanks (blanks ++ cs) = trimBlanks cs := by
  unfold trimBlanks
  rw [List.dropWhile_append_of_pos h]

theorem trimBlanks_append_right (h : ∀ c ∈ blanks, isBlank c = true) (cs : List Char) :
    trimBlanks (cs ++ blanks) = trimBlanks cs := by
  have hreverse : ∀ c ∈ blanks.reverse, isBlank c = true := fun c hc => h c (List.mem_reverse.mp hc)
  unfold trimBlanks
  rw [List.dropWhile_append]
  by_cases hall : (cs.dropWhile isBlank).isEmpty = true
  · rw [if_pos hall, List.isEmpty_iff.mp hall, List.dropWhile_eq_nil_iff.mpr h]
  · rw [if_neg hall, List.reverse_append, List.dropWhile_append_of_pos hreverse]

/-- Nothing but blanks is taken away. -/
theorem exists_trimBlanks (cs : List Char) : ∃ front back, cs = front ++ (trimBlanks cs ++ back) ∧
    (∀ c ∈ front, isBlank c = true) ∧ ∀ c ∈ back, isBlank c = true := by
  let rest := cs.dropWhile isBlank
  refine ⟨cs.takeWhile isBlank, (rest.reverse.takeWhile isBlank).reverse, ?_, ?_, ?_⟩
  · have hrest : trimBlanks cs ++ (rest.reverse.takeWhile isBlank).reverse = rest := by
      show (rest.reverse.dropWhile isBlank).reverse ++ _ = rest
      rw [← List.reverse_append, List.takeWhile_append_dropWhile, List.reverse_reverse]
    rw [hrest, List.takeWhile_append_dropWhile]
  · exact fun c hc => List.mem_takeWhile_imp hc
  · exact fun c hc => List.mem_takeWhile_imp (List.mem_reverse.mp hc)

@[simp] theorem trimBlanks_trimBlanks (cs : List Char) :
    trimBlanks (trimBlanks cs) = trimBlanks cs := by
  obtain ⟨front, back, hcs, hfront, hback⟩ := exists_trimBlanks cs
  conv_rhs => rw [hcs, trimBlanks_append_left hfront, trimBlanks_append_right hback]

theorem mem_of_mem_trimBlanks {c : Char} (hc : c ∈ trimBlanks cs) : c ∈ cs := by
  obtain ⟨front, back, hcs, -, -⟩ := exists_trimBlanks cs
  rw [hcs, List.mem_append, List.mem_append]
  exact .inr (.inl hc)

theorem trimBlanks_of_not_blank (h : ∀ c ∈ cs, isBlank c = false) : trimBlanks cs = cs := by
  have hkept : ∀ ds : List Char, (∀ c ∈ ds, isBlank c = false) → ds.dropWhile isBlank = ds := by
    rintro (_ | ⟨first, rest⟩) hds
    · rfl
    · rw [List.dropWhile_cons_of_neg (by simp [hds first List.mem_cons_self])]
  unfold trimBlanks
  rw [hkept cs h, hkept cs.reverse fun c hc => h c (List.mem_reverse.mp hc), List.reverse_reverse]

theorem isBlank_of_mem_replicate {n : ℕ} {c : Char} (hc : c ∈ List.replicate n ' ') :
    isBlank c = true := by
  rw [List.eq_of_mem_replicate hc]
  decide

end Text

namespace Table

open Text (trimBlanks isBlank)

variable {cells head : List (List Char)} {rows : List (List (List Char))} {widths : List ℕ}
  {ch : Char}

/-! ### Lines of cells and lines between them -/

/-- The cells of a printed line, without the blanks around them. -/
def cellsOf (line : String) : List String :=
  ((line.toList.splitOn '│').tail.dropLast).map fun cs => String.ofList (trimBlanks cs)

/-- Whether a printed line is one of cells. -/
def isCells (line : String) : Bool := line.toList.head? == some '│'

/-- The rows below the headers, as they are read off the printed lines. -/
def body (lines : List String) : List (List String) := ((lines.filter isCells).tail).map cellsOf

section Intercalate

variable {α : Type} {sep : List α} {xs : List (List α)}

theorem intercalate_concat (hne : xs ≠ []) (x : List α) :
    sep.intercalate (xs ++ [x]) = sep.intercalate xs ++ sep ++ x := by
  induction xs with
  | nil => exact absurd rfl hne
  | cons first rest ih =>
    cases rest with
    | nil => simp
    | cons second rest =>
      rw [List.cons_append, List.cons_append, List.intercalate_cons_cons, ← List.cons_append,
        ih (by simp), List.intercalate_cons_cons]
      simp only [List.append_assoc]

theorem mem_of_mem_intercalate {a : α} (ha : a ∈ sep.intercalate xs) : a ∈ sep ∨ ∃ x ∈ xs, a ∈ x := by
  induction xs with
  | nil => simp at ha
  | cons first rest ih =>
    by_cases hrest : rest = []
    · subst hrest
      exact .inr ⟨first, List.mem_cons_self, by simpa using ha⟩
    · rw [List.intercalate_cons_of_ne_nil hrest, List.mem_append, List.mem_append] at ha
      rcases ha with (hfirst | hsep) | hlater
      · exact .inr ⟨first, List.mem_cons_self, hfirst⟩
      · exact .inl hsep
      · exact (ih hlater).imp_right fun ⟨x, hx, hax⟩ => ⟨x, List.mem_cons_of_mem _ hx, hax⟩

theorem filter_intercalate {p : α → Bool} {a : α} (ha : p a = false) (xs : List α)
    (hxs : ∀ x ∈ xs, p x = true) : ([a].intercalate (xs.map ([·]))).filter p = xs := by
  induction xs with
  | nil => simp
  | cons first rest ih =>
    have hfirst := hxs first List.mem_cons_self
    have hlater := ih fun x hx => hxs x (List.mem_cons_of_mem _ hx)
    by_cases hrest : rest = []
    · simp [hrest, hfirst]
    · rw [List.map_cons, List.intercalate_cons_of_ne_nil (by simpa using hrest), List.filter_append,
        hlater]
      simp [hfirst, ha]

end Intercalate

/-- **A line of cells is read back**, if the character between them is in none. -/
theorem cellsOf_line (hne : cells ≠ []) (h : ∀ cs ∈ cells, '│' ∉ cs) :
    cellsOf (line cells) = cells.map fun cs => String.ofList (trimBlanks cs) := by
  let framed := cells.map fun cs => ' ' :: cs ++ [' ']
  have hframed : framed ≠ [] := by simpa [framed] using hne
  have hline : (line cells).toList = ['│'].intercalate ([] :: framed ++ [[]]) := by
    rw [List.cons_append, List.intercalate_cons_of_ne_nil (by simp), intercalate_concat hframed]
    simp [line, framed]
  have hbars : ∀ cs ∈ [] :: framed ++ [[]], '│' ∉ cs := by
    simp only [List.cons_append, List.mem_cons, List.mem_append, List.not_mem_nil, or_false]
    rintro cs (rfl | hcs | rfl)
    · exact List.not_mem_nil
    · obtain ⟨own, hown, rfl⟩ := List.mem_map.mp hcs
      simpa using h own hown
    · exact List.not_mem_nil
  rw [cellsOf, hline, List.splitOn_intercalate _ hbars (by simp), List.cons_append, List.tail_cons,
    List.dropLast_concat, List.map_map]
  refine List.map_congr_left fun cs _ => ?_
  have hblank : ∀ c ∈ [' '], isBlank c = true := fun c hc =>
    Text.isBlank_of_mem_replicate (n := 1) hc
  show String.ofList (trimBlanks ([' '] ++ (cs ++ [' ']))) = _
  rw [Text.trimBlanks_append_left hblank, Text.trimBlanks_append_right hblank]

theorem isCells_line (cells : List (List Char)) : isCells (line cells) = true := by
  simp [isCells, line]

theorem isCells_rule {r : Rule} (h : r.first ≠ '│') (widths : List ℕ) :
    isCells (r.line widths) = false := by
  simpa [isCells, Rule.line] using h

theorem mem_line (h : ch ∈ (line cells).toList) : ch = '│' ∨ ch = ' ' ∨ ∃ cs ∈ cells, ch ∈ cs := by
  simp only [line, String.toList_ofList, List.mem_cons, List.mem_append, List.not_mem_nil,
    or_false] at h
  rcases h with (rfl | hinner) | rfl
  · exact .inl rfl
  · rcases mem_of_mem_intercalate hinner with hbar | ⟨framed, hframed, hch⟩
    · exact .inl (List.mem_singleton.mp hbar)
    · obtain ⟨cs, hcs, rfl⟩ := List.mem_map.mp hframed
      simp only [List.cons_append, List.mem_cons, List.mem_append, List.not_mem_nil, or_false] at hch
      rcases hch with hblank | hown | hblank
      · exact .inr (.inl hblank)
      · exact .inr (.inr ⟨cs, hcs, hown⟩)
      · exact .inr (.inl hblank)
  · exact .inl rfl

theorem mem_rule {r : Rule} (h : ch ∈ (r.line widths).toList) :
    ch ∈ [r.first, r.stroke, r.crossing, r.last] := by
  simp only [Rule.line, String.toList_ofList, List.mem_cons, List.mem_append, List.not_mem_nil,
    or_false] at h ⊢
  rcases h with (hfirst | hinner) | hlast
  · exact .inl hfirst
  · rcases mem_of_mem_intercalate hinner with hcrossing | ⟨strokes, hstrokes, hch⟩
    · exact .inr (.inr (.inl (List.mem_singleton.mp hcrossing)))
    · obtain ⟨w, -, rfl⟩ := List.mem_map.mp hstrokes
      exact .inr (.inl (List.eq_of_mem_replicate hch))
  · exact .inr (.inr (.inr hlast))

/-- The lines of a table whose rows have one line each. -/
def printed (widths : List ℕ) (head : List (List Char)) (rows : List (List (List Char))) :
    List String :=
  top.line widths :: line head :: belowHeader.line widths
    :: [between.line widths].intercalate (rows.map fun cells => [line cells])
    ++ [bottom.line widths]

/-- **The rows of a printed table are read back**, one for each line of cells below the headers. -/
theorem body_printed (h : ∀ cells ∈ rows, cells ≠ [] ∧ ∀ cs ∈ cells, '│' ∉ cs) :
    body (printed widths head rows) =
      rows.map fun cells => cells.map fun cs => String.ofList (trimBlanks cs) := by
  have hrows : ([between.line widths].intercalate (rows.map fun cells => [line cells])).filter
      isCells = rows.map line := by
    have hfilter := filter_intercalate (isCells_rule (r := between) (by decide) widths)
      (rows.map line) (by simp [isCells_line])
    rwa [List.map_map] at hfilter
  have hlines : (printed widths head rows).filter isCells = line head :: rows.map line := by
    simp only [printed, List.cons_append, List.filter_cons, List.filter_append, List.filter_nil,
      isCells_line, isCells_rule (r := top) (by decide), isCells_rule (r := belowHeader) (by decide),
      isCells_rule (r := bottom) (by decide), hrows, if_true, Bool.false_eq_true, if_false,
      List.append_nil]
  rw [body, hlines, List.tail_cons, List.map_map]
  exact List.map_congr_left fun cells hcells => cellsOf_line (h cells hcells).1 (h cells hcells).2

/-- No printed line ends within itself, if no cell has a line end in it. -/
theorem not_mem_printed (hhead : ∀ cs ∈ head, '\n' ∉ cs)
    (h : ∀ cells ∈ rows, ∀ cs ∈ cells, '\n' ∉ cs) :
    ∀ l ∈ printed widths head rows, '\n' ∉ l.toList := by
  have hline : ∀ cells : List (List Char), (∀ cs ∈ cells, '\n' ∉ cs) →
      '\n' ∉ (line cells).toList := by
    intro cells hcells hmem
    rcases mem_line hmem with hbar | hblank | ⟨cs, hcs, hend⟩
    · exact absurd hbar (by decide)
    · exact absurd hblank (by decide)
    · exact hcells cs hcs hend
  intro l hl
  simp only [printed, List.cons_append, List.mem_cons, List.mem_append, List.not_mem_nil,
    or_false] at hl
  rcases hl with rfl | rfl | rfl | hl | rfl
  · exact fun hmem => absurd (mem_rule hmem) (by decide)
  · exact hline head hhead
  · exact fun hmem => absurd (mem_rule hmem) (by decide)
  · rcases mem_of_mem_intercalate hl with hrule | ⟨lines, hlines, hl⟩
    · rw [List.mem_singleton.mp hrule]
      exact fun hmem => absurd (mem_rule hmem) (by decide)
    · obtain ⟨cells, hcells, rfl⟩ := List.mem_map.mp hlines
      rw [List.mem_singleton.mp hl]
      exact hline cells (h cells hcells)
  · exact fun hmem => absurd (mem_rule hmem) (by decide)

/-! ### Columns turned into rows -/

section Transpose

variable {α β : Type} {count : ℕ} {columns : List (List α)} {r : List α}

theorem transpose_map (f : α → β) (count : ℕ) (columns : List (List α)) :
    transpose count (columns.map (List.map f)) = (transpose count columns).map (List.map f) := by
  simp only [transpose, List.map_map, List.filterMap_map, List.map_filterMap, Function.comp_def,
    List.getElem?_map]

/-- Columns of what is made of the same things have a row for each of these. -/
theorem transpose_of_maps (xs : List α) (fs : List (α → β)) :
    transpose xs.length (fs.map fun f => xs.map f) = xs.map fun x => fs.map (· x) := by
  refine List.ext_getElem (by simp [transpose]) fun i hleft hright => ?_
  have hi : i < xs.length := by simpa using hright
  simp [transpose, List.filterMap_map, hi]

theorem length_le_of_mem_transpose (h : r ∈ transpose count columns) :
    r.length ≤ columns.length := by
  obtain ⟨i, -, rfl⟩ := List.mem_map.mp h
  exact List.length_filterMap_le ..

theorem exists_mem_of_mem_transpose (h : r ∈ transpose count columns) {x : α} (hx : x ∈ r) :
    ∃ column ∈ columns, x ∈ column := by
  obtain ⟨i, -, rfl⟩ := List.mem_map.mp h
  obtain ⟨column, hcolumn, hget⟩ := List.mem_filterMap.mp hx
  exact ⟨column, hcolumn, List.mem_of_getElem? hget⟩

theorem ne_nil_of_mem_transpose (hne : columns ≠ []) (hlen : ∀ c ∈ columns, c.length = count)
    (h : r ∈ transpose count columns) : r ≠ [] := by
  obtain ⟨i, hi, rfl⟩ := List.mem_map.mp h
  obtain ⟨first, hfirst⟩ := List.exists_mem_of_ne_nil _ hne
  have hbound : i < first.length := by
    rw [hlen first hfirst]
    exact List.mem_range.mp hi
  have hget := List.getElem?_eq_getElem hbound
  exact List.ne_nil_of_mem (List.mem_filterMap.mpr ⟨first, hfirst, hget⟩)

end Transpose

/-- Cells of one line each make a row of one line. -/
theorem row_of_one_line (hne : cells ≠ []) (hlen : cells.length ≤ widths.length) :
    row widths (cells.map ([·])) = [line cells] := by
  have hheight : ((cells.map ([·])).map List.length).foldl max 0 = 1 := by
    have hones : ∀ n, (List.replicate n 1).foldl max 1 = 1 := by
      intro n
      induction n with
      | zero => rfl
      | succ n ih => exact ih
    obtain ⟨first, rest, rfl⟩ := List.exists_cons_of_ne_nil hne
    rw [List.map_map]
    show (rest.map fun _ => 1).foldl max 1 = 1
    rw [List.map_const']
    exact hones rest.length
  have hfirst : ((cells.map ([·])).zip widths).map
      (fun p => p.1[0]?.getD (List.replicate p.2 ' ')) = cells := by
    rw [List.zip_map_left, List.map_map]
    exact List.map_fst_zip hlen
  unfold row
  rw [hheight]
  exact congrArg (fun cs => [line cs]) hfirst

/-! ### Cells of one line -/

/-- A character that neither ends a line nor stands between cells. -/
def IsPlain (c : Char) : Prop := c ≠ '\n' ∧ c ≠ '\r' ∧ c ≠ '│'

/-- Figures and letters are plain, and no escape begins with one. -/
theorem isPlain_of_range (h : 0x2b ≤ ch.toNat ∧ ch.toNat ≤ 0x7a) :
    IsPlain ch ∧ ch ≠ Text.Escape.lead := by
  refine ⟨⟨?_, ?_, ?_⟩, ?_⟩ <;> rintro rfl <;> exact absurd h (by decide)

theorem isPlain_of_isFigure (h : Text.IsFigure ch) : IsPlain ch :=
  (isPlain_of_range ⟨h.range.1, h.range.2.trans (by decide)⟩).1

/-- A text that fills a cell: there is something of it, it is plain all through, and no blank is
around it. -/
structure FillsCell (s : String) : Prop where
  nonempty : s ≠ ""
  plain : ∀ ch ∈ s.toList, IsPlain ch
  trimmed : trimBlanks s.toList = s.toList

namespace Column

variable {c : Column} {v : Value} {s : String} {req : Needs}

/-- A column whose header and values are plain all through. -/
structure Plain (c : Column) : Prop where
  header : ∀ ch ∈ c.header.toList, IsPlain ch
  values : ∀ v ∈ c.values, ∀ ch ∈ v.display.toList, IsPlain ch

/-- A value as its column writes it, without blanks around it. -/
def shownOf (req : Needs) (c : Column) (v : Value) : String :=
  String.ofList (trimBlanks (Cell.write req.escapes c.kind v).toList)

/-- The values of a column as it writes them, without blanks around them. -/
def shown (req : Needs) (c : Column) : List String := c.values.map (c.shownOf req)

/-- How far the numbers of a column reach behind their points. -/
def furthest (req : Needs) (c : Column) : ℕ :=
  ((c.values.map (Cell.write req.escapes c.kind)).map reach).foldl max 0

/-- A value lined up with the others of its column. -/
def aligned (req : Needs) (c : Column) (v : Value) : List Char :=
  let written := Cell.write req.escapes c.kind v
  if c.kind.isNumeric then
    written.toList ++ List.replicate (c.furthest req - reach written) ' '
  else trimBlanks written.toList

/-- A value as it is printed in one line. -/
def filled (req : Needs) (c : Column) (v : Value) : List Char :=
  c.pad (c.fullWidth req) (Text.Escape.hidden (c.aligned req v)) (c.aligned req v)

theorem texts_eq (req : Needs) (c : Column) : c.texts req = c.values.map (c.aligned req) := by
  unfold texts aligned
  dsimp only
  split <;> rw [List.map_map] <;> rfl

theorem cells_eq (h : req.lines = false) : c.cells req = c.values.map fun v => [c.filled req v] := by
  rw [cells, texts_eq, List.map_map]
  refine List.map_congr_left fun v _ => ?_
  simp [lines, h, filled]

theorem trimBlanks_aligned (req : Needs) (c : Column) (v : Value) :
    trimBlanks (c.aligned req v) = trimBlanks (Cell.write req.escapes c.kind v).toList := by
  unfold aligned
  dsimp only
  split
  · exact Text.trimBlanks_append_right (fun _ => Text.isBlank_of_mem_replicate) _
  · exact Text.trimBlanks_trimBlanks _

theorem trimBlanks_pad (width hidden : ℕ) (c : Column) (cs : List Char) :
    trimBlanks (c.pad width hidden cs) = trimBlanks cs := by
  unfold pad
  split
  · exact Text.trimBlanks_append_left (fun _ => Text.isBlank_of_mem_replicate) _
  · exact Text.trimBlanks_append_right (fun _ => Text.isBlank_of_mem_replicate) _

theorem mem_pad {width hidden : ℕ} {cs : List Char} (h : ch ∈ c.pad width hidden cs) :
    ch = ' ' ∨ ch ∈ cs := by
  unfold pad at h
  split at h
  · exact (List.mem_append.mp h).imp_left List.eq_of_mem_replicate
  · exact (List.mem_append.mp h).symm.imp_left List.eq_of_mem_replicate

/-- Only blanks are added to a value when it is printed. -/
theorem mem_filled (h : ch ∈ c.filled req v) :
    ch = ' ' ∨ ch ∈ (Cell.write req.escapes c.kind v).toList := by
  rcases mem_pad h with hblank | haligned
  · exact .inl hblank
  · unfold aligned at haligned
    dsimp only at haligned
    split at haligned
    · exact (List.mem_append.mp haligned).symm.imp_left List.eq_of_mem_replicate
    · exact .inr (Text.mem_of_mem_trimBlanks haligned)

/-- What is read of a printed value is the value as its column writes it. -/
theorem ofList_trimBlanks_filled (req : Needs) (c : Column) (v : Value) :
    String.ofList (trimBlanks (c.filled req v)) = c.shownOf req v := by
  rw [filled, trimBlanks_pad, trimBlanks_aligned, shownOf]

theorem shownOf_null (req : Needs) (c : Column) : c.shownOf req .null = Cell.missing := by
  have hmissing : ∀ kind, Cell.write req.escapes kind .null = Cell.missing := by
    intro kind
    cases kind <;> rfl
  rw [shownOf, hmissing]
  decide +kernel

theorem shownOf_of_write (hs : FillsCell s) (h : Cell.write req.escapes c.kind (.text s) = s) :
    c.shownOf req (.text s) = s := by
  rw [shownOf, h, hs.trimmed, String.ofList_toList]

/-- A text that fills a cell is read again, unless its column alters it. -/
theorem shownOf_of_not_altered (hs : FillsCell s) (h : ¬Cell.Altered req.escapes c.kind s) :
    c.shownOf req (.text s) = s :=
  shownOf_of_write hs (Cell.write_of_not_altered hs.nonempty h)

theorem shownOf_of_text (hs : FillsCell s) (hc : .text s ∈ c.values)
    (h : Cell.kindOf? (.text s) = some .text) : c.shownOf req (.text s) = s := by
  have hkind : c.kind = .text := Cell.columnKind_of_text hc h
  refine shownOf_of_write hs (Cell.write_flag_or_text hs.nonempty ?_)
  rw [hkind]
  rfl

theorem shownOf_anew (hreq : req.escapes = false) (hkind : c.kind = .double) (hne : s ≠ "")
    {x : Double} (hx : Numeral.double? (Cell.readText false s) = some x) :
    c.shownOf req (.text s) = x.briefText := by
  have hblank : ∀ ch ∈ x.briefText.toList, isBlank ch = false := fun ch hch =>
    (x.figures_briefText ch hch).isBlank
  rw [shownOf, hreq, hkind, Cell.write_anew hne hx, Text.trimBlanks_of_not_blank hblank,
    String.ofList_toList]

theorem Plain.written (h : c.Plain) (hv : v ∈ c.values) :
    ∀ ch ∈ (Cell.write req.escapes c.kind v).toList, IsPlain ch := by
  intro ch hch
  rcases Cell.mem_write hch with hshown | hfigure | hmissing
  · exact h.values v hv ch hshown
  · exact isPlain_of_isFigure hfigure
  · have hmissing : ch = 'N' ∨ ch = '/' ∨ ch = 'A' := by simpa [Cell.missing] using hmissing
    rcases hmissing with rfl | rfl | rfl <;> exact ⟨by decide, by decide, by decide⟩

theorem Plain.filled (h : c.Plain) (hv : v ∈ c.values) : ∀ ch ∈ c.filled req v, IsPlain ch := by
  intro ch hch
  rcases mem_filled hch with rfl | hwritten
  · exact ⟨by decide, by decide, by decide⟩
  · exact h.written hv ch hwritten

/-- A column of which all cells can be written. -/
structure Writable (c : Column) : Prop where
  texts : c.isTextless = false
  fits : c.isBeyond = false

theorem writable_of_values (h : ∀ v ∈ c.values, v.hasText = true ∧ Cell.isBeyond v = false) :
    c.Writable where
  texts := by
    rw [isTextless, List.any_eq_false]
    exact fun v hv => by simp [(h v hv).1]
  fits := by
    rw [isBeyond, Bool.and_eq_false_imp]
    intro _
    rw [List.any_eq_false]
    exact fun v hv => by rw [(h v hv).2]; exact Bool.false_ne_true

end Column

/-! ### Whole tables -/

section Render

variable {count : ℕ} {columns : List Column}

theorem mem_plainText (h : ch ∈ plainText count columns) :
    ch = '\t' ∨ ∃ c ∈ columns, ch ∈ c.header.toList ∨ ∃ v ∈ c.values, ch ∈ v.display.toList := by
  unfold plainText at h
  dsimp only at h
  rw [String.toList_intercalate] at h
  rcases mem_of_mem_intercalate h with htab | ⟨text, htext, hch⟩
  · exact .inl (by simpa using htab)
  · refine .inr ?_
    obtain ⟨s, hs, rfl⟩ := List.mem_map.mp htext
    rcases List.mem_append.mp hs with hheader | hrow
    · obtain ⟨c, hc, rfl⟩ := List.mem_map.mp hheader
      exact ⟨c, hc, .inl hch⟩
    · obtain ⟨r, hr, hs⟩ := List.mem_flatten.mp hrow
      obtain ⟨column, hcolumn, hs⟩ := exists_mem_of_mem_transpose hr hs
      obtain ⟨c, hc, rfl⟩ := List.mem_map.mp hcolumn
      obtain ⟨v, hv, rfl⟩ := List.mem_map.mp hs
      exact ⟨c, hc, .inr ⟨v, hv, hch⟩⟩

theorem needs_lines (h : ∀ c ∈ columns, c.Plain) : (needs count columns).lines = false := by
  have hplain : ∀ ch ∈ plainText count columns, Text.isReturn ch = false := by
    intro ch hch
    rcases mem_plainText hch with rfl | ⟨c, hc, hheader | ⟨v, hv, hvalue⟩⟩
    · decide
    · simp [Text.isReturn, ((h c hc).header ch hheader).1, ((h c hc).header ch hheader).2.1]
    · simp [Text.isReturn, ((h c hc).values v hv ch hvalue).1, ((h c hc).values v hv ch hvalue).2.1]
  rw [needs, Text.hasBreak, List.any_eq_false]
  exact fun ch hch => by rw [hplain ch hch]; exact Bool.false_ne_true

theorem needs_escapes (h : ∀ c ∈ columns, Text.Escape.lead ∉ c.header.toList ∧
    ∀ v ∈ c.values, Text.Escape.lead ∉ v.display.toList) :
    (needs count columns).escapes = false := by
  refine Text.Escape.occurs_of_not_mem fun hlead => ?_
  rcases mem_plainText hlead with htab | ⟨c, hc, hheader | ⟨v, hv, hvalue⟩⟩
  · exact absurd htab (by decide)
  · exact (h c hc).1 hheader
  · exact (h c hc).2 v hv hvalue

theorem ne_nil_of_mem_filled {req : Needs} (hne : columns ≠ [])
    (hlen : ∀ c ∈ columns, c.values.length = count)
    (h : cells ∈ transpose count (columns.map fun c => c.values.map (c.filled req))) :
    cells ≠ [] := by
  refine ne_nil_of_mem_transpose (by simpa using hne) ?_ h
  intro column hcolumn
  obtain ⟨c, hc, rfl⟩ := List.mem_map.mp hcolumn
  rw [List.length_map, hlen c hc]

theorem not_any {p : Column → Bool} (h : ∀ c ∈ columns, c.Writable)
    (hp : ∀ {c : Column}, c.Writable → p c = false) : ¬columns.any p = true := by
  simpa using fun c hc => hp (h c hc)

/-- The printed table, where all headers and values are plain. -/
theorem render_eq_printed (hne : columns ≠ []) (hlen : ∀ c ∈ columns, c.values.length = count)
    (hplain : ∀ c ∈ columns, c.Plain) (hwrite : ∀ c ∈ columns, c.Writable) :
    let req := needs count columns
    render count columns = .ok (printed (columns.map (·.width req))
      (columns.map fun c => c.pad (c.width req) 0 c.header.toList)
      (transpose count (columns.map fun c => c.values.map (c.filled req)))) := by
  intro req
  have hone : req.lines = false := needs_lines hplain
  have hcells : columns.map (·.cells req) =
      (columns.map fun c => c.values.map (c.filled req)).map (List.map ([·])) := by
    rw [List.map_map]
    refine List.map_congr_left fun c _ => ?_
    rw [Column.cells_eq hone]
    show _ = (c.values.map (c.filled req)).map ([·])
    rw [List.map_map]
    rfl
  have hrows : (transpose count (columns.map (·.cells req))).map (row (columns.map (·.width req))) =
      (transpose count (columns.map fun c => c.values.map (c.filled req))).map
        fun cells => [line cells] := by
    rw [hcells, transpose_map, List.map_map]
    refine List.map_congr_left fun cells hmem => ?_
    refine row_of_one_line (ne_nil_of_mem_filled hne hlen hmem) ?_
    simpa using length_le_of_mem_transpose hmem
  rw [render, if_neg (not_any hwrite fun hc => hc.texts),
    if_neg (not_any hwrite fun hc => hc.fits)]
  exact congrArg (fun rows => Except.ok (top.line (columns.map (·.width req))
    :: line (columns.map fun c => c.pad (c.width req) 0 c.header.toList)
    :: belowHeader.line (columns.map (·.width req))
    :: [between.line (columns.map (·.width req))].intercalate rows
    ++ [bottom.line (columns.map (·.width req))])) hrows

/-- **A printed table is read back.** Where headers and values are plain, every printed line is a
line, and its rows of cells are the values as their columns write them, one row for each. -/
theorem render_plain (hne : columns ≠ []) (hlen : ∀ c ∈ columns, c.values.length = count)
    (hplain : ∀ c ∈ columns, c.Plain) (hwrite : ∀ c ∈ columns, c.Writable) :
    ∃ lines, render count columns = .ok lines ∧ (∀ l ∈ lines, '\n' ∉ l.toList) ∧
      body lines = transpose count (columns.map (·.shown (needs count columns))) := by
  let req := needs count columns
  let rows := transpose count (columns.map fun c => c.values.map (c.filled req))
  have hcells : ∀ cells ∈ rows, ∀ cs ∈ cells, ∀ ch ∈ cs, IsPlain ch := by
    intro cells hmem cs hcs
    obtain ⟨column, hcolumn, hcs⟩ := exists_mem_of_mem_transpose hmem hcs
    obtain ⟨c, hc, rfl⟩ := List.mem_map.mp hcolumn
    obtain ⟨v, hv, rfl⟩ := List.mem_map.mp hcs
    exact (hplain c hc).filled hv
  refine ⟨_, render_eq_printed hne hlen hplain hwrite, ?_, ?_⟩
  · refine not_mem_printed ?_ fun cells hmem cs hcs hend => (hcells cells hmem cs hcs _ hend).1 rfl
    intro cs hcs hend
    obtain ⟨c, hc, rfl⟩ := List.mem_map.mp hcs
    rcases Column.mem_pad hend with hblank | hheader
    · exact absurd hblank (by decide)
    · exact ((hplain c hc).header _ hheader).1 rfl
  · rw [body_printed fun cells hmem => ⟨ne_nil_of_mem_filled hne hlen hmem, fun cs hcs hbar =>
      (hcells cells hmem cs hcs _ hbar).2.2 rfl⟩]
    show rows.map (List.map fun cs => String.ofList (trimBlanks cs)) = _
    rw [← transpose_map, List.map_map]
    congr 1
    refine List.map_congr_left fun c _ => ?_
    show (c.values.map (c.filled req)).map _ = c.values.map (c.shownOf req)
    rw [List.map_map]
    exact List.map_congr_left fun v _ => Column.ofList_trimBlanks_filled req c v

end Render

end Table
end TunnelView
