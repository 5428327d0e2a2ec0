import TunnelView.Proofs.Tables
import TunnelView.Timeline

/-!
# What a timeline shows

Where each detail of the statuses is unset or a text that fills a cell, a timeline has one row for
each commit, in order, with the names of the phase and the aim. An unset detail is shown by the mark
of a missing one, and a text by itself, unless its column alters it. Without escapes that happens
only where all texts of a detail look like numbers and one of them is no integer. The column then is
one of doubles, and each number stands there by its brief text. A single text that looks like no
number keeps its column as it is.

Key definitions: `Details.FillCells`, `Timeline.Shows`, `Timeline.ShowsDetail`.
Key theorems: `Timeline.field_cases`, `Timeline.exists_rows`,
`Timeline.shows_details_unless_altered`.
-/

namespace TunnelView

namespace Details

/-- All details. -/
def all (d : Details) : List Value := [d.endpoint, d.location, d.cause]

/-- Details of which each is unset or a text that fills a cell. -/
def FillCells (d : Details) : Prop := ∀ v ∈ d.all, v = .null ∨ ∃ s, v = .text s ∧ Table.FillsCell s

theorem FillCells.writable {d : Details} (h : d.FillCells) :
    ∀ v ∈ d.all, v.hasText = true ∧ Cell.isBeyond v = false := by
  intro v hv
  rcases h v hv with rfl | ⟨s, rfl, -⟩ <;> exact ⟨rfl, rfl⟩

end Details

namespace Phase

theorem range_name (p : Phase) : ∀ ch ∈ p.name.toList, 0x2b ≤ ch.toNat ∧ ch.toNat ≤ 0x7a := by
  cases p <;> simp [name]

theorem fillsCell_name (p : Phase) : Table.FillsCell p.name where
  nonempty := by cases p <;> decide
  plain := fun ch hch => (Table.isPlain_of_range (p.range_name ch hch)).1
  trimmed := by cases p <;> decide +kernel

/-- No name of a phase looks like a number. -/
theorem kindOf?_name (p : Phase) : Cell.kindOf? (.text p.name) = some .text := by
  cases p <;> decide +kernel

end Phase

namespace Aim

theorem range_name (a : Aim) : ∀ ch ∈ a.name.toList, 0x2b ≤ ch.toNat ∧ ch.toNat ≤ 0x7a := by
  cases a <;> simp [name]

theorem fillsCell_name (a : Aim) : Table.FillsCell a.name where
  nonempty := by cases a <;> decide
  plain := fun ch hch => (Table.isPlain_of_range (a.range_name ch hch)).1
  trimmed := by cases a <;> decide +kernel

/-- No name of an aim looks like a number. -/
theorem kindOf?_name (a : Aim) : Cell.kindOf? (.text a.name) = some .text := by
  cases a <;> decide +kernel

end Aim

namespace Timeline

open Table (Column Needs)

variable {commits : List (Number × Status)}

/-! ### What is read -/

/-- The details that have a column, with the places of their columns. -/
def places : List (ℕ × (Details → Value)) :=
  [(3, Details.endpoint), (4, Details.location), (5, Details.cause)]

/-- A detail of all commits, in order. -/
def detail (field : Details → Value) (commits : List (Number × Status)) : List Value :=
  commits.map fun c => field c.2.details

/-- What a timeline calls for. -/
def needs (commits : List (Number × Status)) : Needs :=
  Table.needs commits.length (columns commits)

/-- Commits without an escape in any detail. -/
def Uncoloured (commits : List (Number × Status)) : Prop :=
  ∀ c ∈ commits, ∀ v ∈ c.2.details.all, Text.Escape.lead ∉ v.display.toList

/-- What a cell shows of a detail. An unset one is missing, and a text is shown as it is unless its
column alters it. Where there are no escapes, only columns that are read as doubles do so: they show
the brief text of what they read. -/
structure ShowsDetail (commits : List (Number × Status)) (field : Details → Value) (v : Value)
    (cell : String) : Prop where
  missing : v = .null → cell = Cell.missing
  kept : ∀ s, v = .text s →
    ¬Cell.Altered (needs commits).escapes (Cell.columnKind (detail field commits)) s → cell = s
  kept_iff : Uncoloured commits → ∀ s, v = .text s →
    (cell = s ↔ ¬(Cell.ReadAsDoubles (detail field commits) ∧ Cell.Reworded false s))
  anew : Uncoloured commits → Cell.ReadAsDoubles (detail field commits) → ∀ s, v = .text s →
    ∀ x, Numeral.double? (Cell.readText false s) = some x → cell = x.briefText

/-- What a row shows of a commit. -/
structure Shows (commits : List (Number × Status)) (c : Number × Status) (row : List String) :
    Prop where
  length : row.length = 6
  phase : row[1]? = some c.2.phase.name
  aim : row[2]? = some ((c.2.aim?.map Aim.name).getD Cell.missing)
  details : ∀ p ∈ places, ∃ cell, row[p.1]? = some cell ∧
    ShowsDetail commits p.2 (p.2 c.2.details) cell

/-! ### The columns of a timeline -/

/-- What the columns hold of a commit, under their headers. -/
def fields : List (String × (Number × Status → Value)) :=
  [("at (ms)", fun c => .text c.1.toDouble.wholeText),
    ("state", fun c => .text c.2.phase.name),
    ("reason", fun c => (c.2.aim?.map fun aim => Value.text aim.name).getD .null),
    ("endpoint", fun c => c.2.details.endpoint),
    ("location", fun c => c.2.details.location),
    ("error", fun c => c.2.details.cause)]

/-- The column of a field. -/
def column (commits : List (Number × Status)) (f : String × (Number × Status → Value)) : Column :=
  ⟨f.1, commits.map f.2⟩

theorem columns_eq (commits : List (Number × Status)) :
    columns commits = fields.map (column commits) := rfl

/-- What is read of a commit. -/
def rowOf (commits : List (Number × Status)) (c : Number × Status) : List String :=
  fields.map fun f => (column commits f).shownOf (needs commits) (f.2 c)

theorem transpose_shown (commits : List (Number × Status)) :
    Table.transpose commits.length ((columns commits).map (·.shown (needs commits))) =
      commits.map (rowOf commits) := by
  have hshown : (columns commits).map (·.shown (needs commits)) =
      (fields.map fun f c => (column commits f).shownOf (needs commits) (f.2 c)).map
        fun g => commits.map g := by
    rw [columns_eq, List.map_map, List.map_map]
    exact List.map_congr_left fun f _ => List.map_map
  rw [hshown, Table.transpose_of_maps]
  exact List.map_congr_left fun c _ => List.map_map

/-! ### Plain columns -/

theorem mem_details {p : ℕ × (Details → Value)} (hp : p ∈ places) (d : Details) :
    p.2 d ∈ d.all := by
  simp only [places, List.mem_cons, List.not_mem_nil, or_false] at hp
  rcases hp with rfl | rfl | rfl <;> simp [Details.all]

/-- A field holds figures or a name, a detail, or nothing. -/
theorem field_cases {f : String × (Number × Status → Value)} (hf : f ∈ fields)
    (c : Number × Status) :
    f.2 c = .null ∨
      (∃ s, f.2 c = .text s ∧ ∀ ch ∈ s.toList, 0x2b ≤ ch.toNat ∧ ch.toNat ≤ 0x7a) ∨
      f.2 c ∈ c.2.details.all := by
  simp only [fields, List.mem_cons, List.not_mem_nil, or_false] at hf
  rcases hf with rfl | rfl | rfl | rfl | rfl | rfl
  · refine .inr (.inl ⟨_, rfl, fun ch hch => ?_⟩)
    have hrange := (Double.figures_wholeText _ ch hch).range
    exact ⟨hrange.1, hrange.2.trans (by decide)⟩
  · exact .inr (.inl ⟨_, rfl, Phase.range_name _⟩)
  · dsimp only
    cases c.2.aim? with
    | none => exact .inl rfl
    | some a => exact .inr (.inl ⟨_, rfl, Aim.range_name a⟩)
  · exact .inr (.inr (by simp [Details.all]))
  · exact .inr (.inr (by simp [Details.all]))
  · exact .inr (.inr (by simp [Details.all]))

theorem header_plain {f : String × (Number × Status → Value)} (hf : f ∈ fields) :
    ∀ ch ∈ f.1.toList, Table.IsPlain ch ∧ ch ≠ Text.Escape.lead := by
  simp only [fields, List.mem_cons, List.not_mem_nil, or_false] at hf
  rcases hf with rfl | rfl | rfl | rfl | rfl | rfl <;> simp [Table.IsPlain, Text.Escape.lead]

section Plain

variable (hdetails : ∀ c ∈ commits, c.2.details.FillCells)
include hdetails

/-- A field holds a plain text, or nothing. -/
theorem field_plain {f : String × (Number × Status → Value)} (hf : f ∈ fields)
    {c : Number × Status} (hc : c ∈ commits) :
    f.2 c = .null ∨ ∃ s, f.2 c = .text s ∧ ∀ ch ∈ s.toList, Table.IsPlain ch := by
  rcases field_cases hf c with hnull | ⟨s, hs, hrange⟩ | hdetail
  · exact .inl hnull
  · exact .inr ⟨s, hs, fun ch hch => (Table.isPlain_of_range (hrange ch hch)).1⟩
  · exact (hdetails c hc _ hdetail).imp_right fun ⟨s, hs, hfill⟩ => ⟨s, hs, hfill.plain⟩

theorem columns_plain : ∀ col ∈ columns commits, col.Plain := by
  intro col hcol
  obtain ⟨f, hf, rfl⟩ := List.mem_map.mp (columns_eq commits ▸ hcol)
  refine ⟨fun ch hch => (header_plain hf ch hch).1, fun v hv => ?_⟩
  obtain ⟨c, hc, rfl⟩ := List.mem_map.mp hv
  rcases field_plain hdetails hf hc with hnull | ⟨s, hs, hplain⟩
  · rw [hnull]
    simp [Value.display, Value.literal, Table.IsPlain]
  · rw [hs]
    exact hplain

end Plain

/-- Columns can be written where all details can. -/
theorem columns_writable (h : ∀ c ∈ commits, ∀ v ∈ c.2.details.all,
    v.hasText = true ∧ Cell.isBeyond v = false) : ∀ col ∈ columns commits, col.Writable := by
  intro col hcol
  obtain ⟨f, hf, rfl⟩ := List.mem_map.mp (columns_eq commits ▸ hcol)
  refine Column.writable_of_values fun v hv => ?_
  obtain ⟨c, hc, rfl⟩ := List.mem_map.mp hv
  rcases field_cases hf c with hnull | ⟨s, hs, -⟩ | hdetail
  · rw [hnull]
    exact ⟨rfl, rfl⟩
  · rw [hs]
    exact ⟨rfl, rfl⟩
  · exact h c hc _ hdetail

/-- A timeline without escapes in its details has none. -/
theorem needs_escapes (h : Uncoloured commits) : (needs commits).escapes = false := by
  refine Table.needs_escapes fun col hcol => ?_
  obtain ⟨f, hf, rfl⟩ := List.mem_map.mp (columns_eq commits ▸ hcol)
  refine ⟨fun hlead => (header_plain hf _ hlead).2 rfl, fun v hv hlead => ?_⟩
  obtain ⟨c, hc, rfl⟩ := List.mem_map.mp hv
  rcases field_cases hf c with hnull | ⟨s, hs, hrange⟩ | hdetail
  · rw [hnull] at hlead
    simp [Value.display, Value.literal, Text.Escape.lead] at hlead
  · rw [hs] at hlead
    exact (Table.isPlain_of_range (hrange _ hlead)).2 rfl
  · exact h c hc _ hdetail hlead

/-! ### What is read of a commit -/

section Rows

variable {c : Number × Status}

theorem shows_phase (hc : c ∈ commits) : (rowOf commits c)[1]? = some c.2.phase.name := by
  show some (Column.shownOf _ (column commits ("state", fun c => .text c.2.phase.name))
    (.text c.2.phase.name)) = _
  refine congrArg some (Column.shownOf_of_text c.2.phase.fillsCell_name ?_ c.2.phase.kindOf?_name)
  exact List.mem_map_of_mem hc

theorem shows_aim (hc : c ∈ commits) :
    (rowOf commits c)[2]? = some ((c.2.aim?.map Aim.name).getD Cell.missing) := by
  let aims : String × (Number × Status → Value) :=
    ("reason", fun c => (c.2.aim?.map fun aim => Value.text aim.name).getD .null)
  have hmem : aims.2 c ∈ (column commits aims).values := List.mem_map_of_mem hc
  show some (Column.shownOf _ (column commits aims) (aims.2 c)) = _
  have haims : aims.2 c = (c.2.aim?.map fun aim => Value.text aim.name).getD .null := rfl
  rw [haims] at hmem ⊢
  cases haim : c.2.aim? with
  | none => exact congrArg some (Column.shownOf_null _ _)
  | some a =>
    rw [haim] at hmem
    exact congrArg some (Column.shownOf_of_text a.fillsCell_name hmem a.kindOf?_name)

theorem exists_field {p : ℕ × (Details → Value)} (hp : p ∈ places) :
    ∃ header, fields[p.1]? = some (header, fun c => p.2 c.2.details) := by
  simp only [places, List.mem_cons, List.not_mem_nil, or_false] at hp
  rcases hp with rfl | rfl | rfl <;> exact ⟨_, rfl⟩

/-- What is read of a detail. -/
theorem showsDetail (hdetails : ∀ c ∈ commits, c.2.details.FillCells) (hc : c ∈ commits)
    {field : Details → Value} (hfield : field c.2.details ∈ c.2.details.all) (header : String) :
    ShowsDetail commits field (field c.2.details)
      ((column commits (header, fun c => field c.2.details)).shownOf (needs commits)
        (field c.2.details)) := by
  let col := column commits (header, fun c => field c.2.details)
  have hfills : ∀ s, field c.2.details = .text s → Table.FillsCell s := by
    intro s hs
    rcases hdetails c hc _ hfield with hnull | ⟨s', hs', hfill⟩
    · rw [hs] at hnull
      cases hnull
    · obtain rfl := Value.text.inj (hs.symm.trans hs')
      exact hfill
  have hmem : field c.2.details ∈ col.values := List.mem_map_of_mem hc
  have hkept : ∀ s, field c.2.details = .text s →
      ¬Cell.Altered (needs commits).escapes col.kind s →
      col.shownOf (needs commits) (field c.2.details) = s := by
    intro s hs haltered
    rw [hs]
    exact Column.shownOf_of_not_altered (hfills s hs) haltered
  have hanew : Uncoloured commits → Cell.ReadAsDoubles col.values → ∀ s,
      field c.2.details = .text s → ∀ x, Numeral.double? (Cell.readText false s) = some x →
      col.shownOf (needs commits) (field c.2.details) = x.briefText := by
    intro hplain hdoubles s hs x hx
    have hkind : col.kind = .double := Cell.columnKind_eq_double_iff.mpr hdoubles
    rw [hs]
    exact Column.shownOf_anew (needs_escapes hplain) hkind (hfills s hs).nonempty hx
  refine ⟨?_, hkept, ?_, hanew⟩
  · intro hnull
    rw [hnull]
    exact Column.shownOf_null _ _
  · intro hplain s hs
    constructor
    · rintro hcell ⟨hdoubles, x, hx, hne⟩
      exact hne ((hanew hplain hdoubles s hs x hx).symm.trans hcell)
    · intro hsame
      refine hkept s hs fun haltered => hsame ?_
      rw [needs_escapes hplain] at haltered
      have hlead := hplain c hc _ hfield
      rw [hs] at hlead hmem
      exact (Cell.altered_iff_of_uncoloured (hfills s hs).nonempty hmem hlead).mp haltered

theorem shows_rowOf (hdetails : ∀ c ∈ commits, c.2.details.FillCells) (hc : c ∈ commits) :
    Shows commits c (rowOf commits c) where
  length := rfl
  phase := shows_phase hc
  aim := shows_aim hc
  details := by
    intro p hp
    obtain ⟨header, hheader⟩ := exists_field hp
    refine ⟨_, ?_, showsDetail hdetails hc (mem_details hp _) header⟩
    rw [rowOf, List.getElem?_map, hheader]
    rfl

end Rows

/-- A timeline of some commits is a table, unless no double reaches one of the times. -/
theorem render_eq (hsome : commits ≠ []) :
    render commits = if ∃ c ∈ commits, Cell.isBeyond (.number c.1) = true then .error {}
      else Table.render commits.length (columns commits) := by
  have hempty : ¬commits.isEmpty = true := by simpa using hsome
  rw [render, if_neg hempty]
  exact if_congr List.any_eq_true rfl rfl

/-- **A timeline has one row for each commit**, which shows it. -/
theorem exists_rows (hsome : commits ≠ [])
    (htimes : ¬∃ c ∈ commits, Cell.isBeyond (.number c.1) = true)
    (hdetails : ∀ c ∈ commits, c.2.details.FillCells) :
    ∃ lines, render commits = .ok lines ∧ (∀ l ∈ lines, '\n' ∉ l.toList) ∧
      List.Forall₂ (Shows commits) commits (Table.body lines) := by
  have hlen : ∀ col ∈ columns commits, col.values.length = commits.length := by
    intro col hcol
    obtain ⟨f, hf, rfl⟩ := List.mem_map.mp (columns_eq commits ▸ hcol)
    exact List.length_map _
  obtain ⟨lines, hlines, hends, hbody⟩ := Table.render_plain (by simp [columns]) hlen
    (columns_plain hdetails)
    (columns_writable fun c hc => (hdetails c hc).writable)
  refine ⟨lines, ?_, hends, ?_⟩
  · rw [render_eq hsome, if_neg htimes]
    exact hlines
  · rw [hbody]
    show List.Forall₂ _ _ (Table.transpose _ ((columns commits).map (·.shown (needs commits))))
    rw [transpose_shown, List.forall₂_map_right_iff, List.forall₂_same]
    exact fun c hc => shows_rowOf hdetails hc

/-- **A timeline shows the details as they are, unless their column alters them.** Whatever the times
of some commits are and their statuses, if each detail is unset or a text that fills a cell, then
either a time is an integer that no double reaches, and nothing can be written, or a table is printed
that is read back line by line: one row for each commit, in order. Such a row has the names of phase
and aim, the mark of a missing value for each detail that is unset, and the very text of each that is
set, unless it is altered. Where no detail holds an escape, a text is altered just when all texts of its
column look like numbers, one of them like none that is whole, and it is read as a double with
another brief text, which is shown instead. -/
theorem shows_details_unless_altered (hsome : commits ≠ [])
    (hdetails : ∀ c ∈ commits, c.2.details.FillCells) :
    (∃ c ∈ commits, Cell.isBeyond (.number c.1) = true) ∧ render commits = .error {} ∨
    ∃ lines, render commits = .ok lines ∧ (∀ l ∈ lines, '\n' ∉ l.toList) ∧
      List.Forall₂ (Shows commits) commits (Table.body lines) := by
  by_cases htimes : ∃ c ∈ commits, Cell.isBeyond (.number c.1) = true
  · exact .inl ⟨htimes, by rw [render_eq hsome, if_pos htimes]⟩
  · exact .inr (exists_rows hsome htimes hdetails)

/-- A commit with a place that looks like a number. -/
def numbered : Number × Status :=
  (.int 0, { condition := .connected, details := { location := .text "1.50" } })

/-- A commit with a place that looks like none, and a cause that does. -/
def named : Number × Status :=
  (.int 10, { condition := .error, details := { location := .text "se-got", cause := .text "7.5" } })

theorem numbered_fillCells : numbered.2.details.FillCells := by
  have hfill : Table.FillsCell "1.50" :=
    ⟨by decide, by simp [Table.IsPlain], by decide +kernel⟩
  intro v hv
  simp only [numbered, Details.all, List.mem_cons, List.not_mem_nil, or_false] at hv
  rcases hv with rfl | rfl | rfl
  · exact .inl rfl
  · exact .inr ⟨_, rfl, hfill⟩
  · exact .inl rfl

theorem named_fillCells : named.2.details.FillCells := by
  have hplace : Table.FillsCell "se-got" :=
    ⟨by decide, by simp [Table.IsPlain], by decide +kernel⟩
  have hcause : Table.FillsCell "7.5" :=
    ⟨by decide, by simp [Table.IsPlain], by decide +kernel⟩
  intro v hv
  simp only [named, Details.all, List.mem_cons, List.not_mem_nil, or_false] at hv
  rcases hv with rfl | rfl | rfl
  · exact .inl rfl
  · exact .inr ⟨_, rfl, hplace⟩
  · exact .inr ⟨_, rfl, hcause⟩

theorem uncoloured_numbered_named : Uncoloured [numbered, named] := by
  simp [Uncoloured, numbered, named, Details.all, Value.display, Value.literal, Text.Escape.lead]

/-- Both commits in one timeline. A place that looks like no number keeps the column as it is, and
a cause that is its own brief text stays as well. -/
theorem shows_details_unless_altered_named :
    ([numbered, named] ≠ [] ∧ ∀ c ∈ [numbered, named], c.2.details.FillCells) ∧
      ∃ lines first second, render [numbered, named] = .ok lines ∧
        Table.body lines = [first, second] ∧
        first[4]? = some "1.50" ∧ first[5]? = some Cell.missing ∧
        second[4]? = some "se-got" ∧ second[5]? = some "7.5" := by
  have hsome : [numbered, named] ≠ [] := List.cons_ne_nil _ _
  have hdetails : ∀ c ∈ [numbered, named], c.2.details.FillCells := by
    simp only [List.mem_cons, List.not_mem_nil, or_false, forall_eq_or_imp, forall_eq]
    exact ⟨numbered_fillCells, named_fillCells⟩
  have hplaces : Cell.columnKind (detail Details.location [numbered, named]) = .text := by
    decide +kernel
  have hunaltered : ∀ escapes s,
      ¬Cell.Altered escapes (Cell.columnKind (detail Details.location [numbered, named])) s := by
    rw [hplaces]
    rintro escapes s (⟨hkind, -⟩ | ⟨hkind, -⟩) <;> cases hkind
  have hcause : ¬Cell.Reworded false "7.5" := by
    rintro ⟨x, hx, hne⟩
    have hbrief : (Numeral.double? (Cell.readText false "7.5")).map Double.briefText =
        some "7.5" := by decide +kernel
    rw [hx] at hbrief
    exact hne (Option.some.inj hbrief)
  refine ⟨⟨hsome, hdetails⟩, ?_⟩
  rcases shows_details_unless_altered hsome hdetails with ⟨⟨c, hc, hbeyond⟩, -⟩ |
    ⟨lines, hlines, -, hrows⟩
  · simp only [List.mem_cons, List.not_mem_nil, or_false] at hc
    rcases hc with rfl | rfl <;> exact absurd hbeyond (by decide +kernel)
  · rw [List.forall₂_cons_left_iff] at hrows
    obtain ⟨first, rest, hfirst, hrest, hbody⟩ := hrows
    rw [List.forall₂_cons_left_iff] at hrest
    obtain ⟨second, rest, hsecond, hrest, rfl⟩ := hrest
    obtain rfl := List.forall₂_nil_left_iff.mp hrest
    obtain ⟨place, hplace, hfirstPlace⟩ := hfirst.details (4, Details.location) (by simp [places])
    obtain ⟨missing, hmissing, hfirstCause⟩ := hfirst.details (5, Details.cause) (by simp [places])
    obtain ⟨place', hplace', hsecondPlace⟩ :=
      hsecond.details (4, Details.location) (by simp [places])
    obtain ⟨cause, hcauseAt, hsecondCause⟩ := hsecond.details (5, Details.cause) (by simp [places])
    obtain rfl := hfirstPlace.kept "1.50" rfl (hunaltered _ _)
    obtain rfl := hfirstCause.missing rfl
    obtain rfl := hsecondPlace.kept "se-got" rfl (hunaltered _ _)
    obtain rfl := (hsecondCause.kept_iff uncoloured_numbered_named "7.5" rfl).mpr
      fun haltered => hcause haltered.2
    exact ⟨lines, first, second, hlines, hbody, hplace, hmissing, hplace', hcauseAt⟩

/-- By itself, a place that looks like a number is shown as another text. -/
theorem shows_another_text :
    ([numbered] ≠ [] ∧ ∀ c ∈ [numbered], c.2.details.FillCells) ∧
      numbered.2.details.location = .text "1.50" ∧
      ∃ lines row, render [numbered] = .ok lines ∧ Table.body lines = [row] ∧
        row[4]? = some "1.5" := by
  have hsome : [numbered] ≠ [] := List.cons_ne_nil _ _
  have hdetails : ∀ c ∈ [numbered], c.2.details.FillCells := by
    simpa using numbered_fillCells
  have htimes : ¬∃ c ∈ [numbered], Cell.isBeyond (.number c.1) = true := by
    simp only [List.mem_singleton, exists_eq_left]
    decide +kernel
  have hplain : Uncoloured [numbered] := by
    intro c hc
    rw [List.mem_singleton] at hc
    exact uncoloured_numbered_named c (by simp [hc])
  have hdoubles : Cell.ReadAsDoubles (detail Details.location [numbered]) :=
    Cell.columnKind_eq_double_iff.mp (by decide +kernel)
  have hbrief : (Numeral.double? (Cell.readText false "1.50")).map Double.briefText =
      some "1.5" := by decide +kernel
  obtain ⟨x, hx, hbrief⟩ := Option.map_eq_some_iff.mp hbrief
  obtain ⟨lines, hlines, -, hrows⟩ := exists_rows hsome htimes hdetails
  rw [List.forall₂_cons_left_iff] at hrows
  obtain ⟨row, rest, hrow, hrest, hbody⟩ := hrows
  obtain rfl := List.forall₂_nil_left_iff.mp hrest
  obtain ⟨place, hplace, hshows⟩ := hrow.details (4, Details.location) (by simp [places])
  obtain rfl := hshows.anew hplain hdoubles "1.50" rfl x hx
  rw [hbrief] at hplace
  exact ⟨⟨hsome, hdetails⟩, rfl, lines, row, hlines, hbody, hplace⟩

end Timeline
end TunnelView
