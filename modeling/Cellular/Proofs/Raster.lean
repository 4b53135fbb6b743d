import Mathlib.Algebra.Group.Nat.Defs
import Cellular.Pattern.Apgcode.Raster
import Cellular.Proofs.ShortestCode

/-!
# Codes of the tallest patterns

A code can be written cell by cell as well as from the list of cells, as long as each
row that is looked into has the cells of the row that is meant.  A pattern may have as
many rows as the span has numbers above 0.  Its bands have up to four more, and these
need not be in the span, although no cell of the pattern is there.  Arithmetic that
checks its results then ends the writing, and arithmetic that wraps around looks into
rows above the pattern and finds them as empty as the rows below it.
-/

namespace Cellular

namespace Apgcode

section Results

variable {α β : Type} {f : α → Option β} {l : List α}

theorem mapM_eq_some_map {value : α → β} (hvalue : ∀ a ∈ l, f a = some (value a)) :
    l.mapM f = some (l.map value) := by
  induction l with
  | nil => rfl
  | cons a l ih =>
    rw [List.forall_mem_cons] at hvalue
    rw [List.mapM_cons, hvalue.1, ih hvalue.2]
    rfl

theorem mapM_eq_none {a : α} (ha : a ∈ l) (hnone : f a = none) : l.mapM f = none := by
  induction l with
  | nil => cases ha
  | cons first l ih =>
    rw [List.mapM_cons]
    cases hfirst : f first with
    | none => rfl
    | some b =>
      have hne : a ≠ first := by
        intro heq
        rw [← heq, hnone] at hfirst
        cases hfirst
      rw [ih ((List.mem_cons.1 ha).resolve_left hne)]
      rfl

end Results

/-! ## Blank columns -/

theorem rasterTokens_blanks {run : ℕ} {blanks : List (Fin 32)}
    (hblanks : ∀ bits ∈ blanks, bits = 0) : rasterTokens run blanks = [] := by
  induction blanks generalizing run with
  | nil => rfl
  | cons bits blanks ih =>
    rw [List.forall_mem_cons] at hblanks
    rw [rasterTokens, if_pos hblanks.1, ih hblanks.2]

theorem rasterTokens_append_blanks {run : ℕ} {columns blanks : List (Fin 32)}
    (hblanks : ∀ bits ∈ blanks, bits = 0) :
    rasterTokens run (columns ++ blanks) = rasterTokens run columns := by
  induction columns generalizing run with
  | nil => exact rasterTokens_blanks hblanks
  | cons bits columns ih => rw [List.cons_append, rasterTokens, rasterTokens, ih, ih]

/-- Blank columns at the end are not written, whether they are taken away or not. -/
theorem rasterTokens_trimBlanks (run : ℕ) (columns : List (Fin 32)) :
    rasterTokens run (trimBlanks columns) = rasterTokens run columns := by
  let blanks := (columns.reverse.takeWhile (· = 0)).reverse
  have hsplit : trimBlanks columns ++ blanks = columns := by
    rw [trimBlanks, ← List.reverse_append, List.takeWhile_append_dropWhile,
      List.reverse_reverse]
  have hblanks : ∀ bits ∈ blanks, bits = 0 := by
    intro bits hbits
    have hall := List.all_eq_true.1 List.all_takeWhile bits (List.mem_reverse.1 hbits)
    exact of_decide_eq_true hall
  calc
    rasterTokens run (trimBlanks columns) =
        rasterTokens run (trimBlanks columns ++ blanks) :=
      (rasterTokens_append_blanks hblanks).symm
    _ = rasterTokens run columns := congrArg (rasterTokens run) hsplit

/-- Counting blank columns comes to the same as keeping the places of the others.  The
induction is on the columns from `x` on, after a run of blank ones. -/
theorem rasterTokens_eq_columnTokens {run x : ℕ} (hrun : run ≤ x) (columns : List (Fin 32)) :
    rasterTokens run columns =
      columnTokens (x - run) (liveColumns x (columns.map .column)) := by
  induction columns generalizing run x with
  | nil => rfl
  | cons bits columns ih =>
    rw [rasterTokens, List.map_cons, liveColumns]
    split
    · have hnext : run + 1 ≤ x + 1 := Nat.succ_le_succ hrun
      rw [ih hnext, Nat.add_sub_add_right]
    · rw [columnTokens, Nat.sub_sub_self hrun, ih (Nat.zero_le (x + 1)), Nat.sub_zero]

/-! ## Columns and bands -/

section Pattern

variable {coords : List Coord} {band : ℕ}

/-- The cells of a column are the cells of the pattern there. -/
theorem mem_columnCells_columnBits_iff (hnonneg : ∀ c ∈ coords, 0 ≤ c.x ∧ 0 ≤ c.y) {x : ℕ}
    {c : Coord} :
    c ∈ columnCells band x (columnBits band coords x) ↔
      c.x = x ∧ c ∈ coords ∧ c.y / bandHeight = band := by
  rw [mem_columnCells_iff]
  constructor
  · rintro ⟨hx, h, hh, hbit, hy⟩
    have hc : c = ⟨x, bandRow band h⟩ := Coord.ext_iff.2 ⟨hx, hy⟩
    rw [testBit_columnBits _ _ _ hh, List.contains_iff_mem, ← hc] at hbit
    exact ⟨hx, hbit, (exists_bandRow_iff (hnonneg c hbit).2 band).2 ⟨h, hh, hy⟩⟩
  · rintro ⟨hx, hmem, hband⟩
    obtain ⟨h, hh, hy⟩ := (exists_bandRow_iff (hnonneg c hmem).2 band).1 hband
    have hc : c = ⟨x, bandRow band h⟩ := Coord.ext_iff.2 ⟨hx, hy⟩
    refine ⟨hx, h, hh, ?_, hy⟩
    rwa [testBit_columnBits _ _ _ hh, List.contains_iff_mem, ← hc]

theorem mem_cellsOfColumns_liveColumns_iff (f : ℕ → Fin 32) (start n : ℕ) {c : Coord} :
    c ∈ cellsOfColumns band
        (liveColumns start ((List.range' start n).map fun x => .column (f x))) ↔
      ∃ x ∈ List.range' start n, c ∈ columnCells band x (f x) := by
  induction n generalizing start with
  | zero => simp [liveColumns, cellsOfColumns]
  | succ n ih =>
    simp only [List.range'_succ, List.mem_cons, exists_eq_or_imp, ← ih, List.map_cons,
      liveColumns]
    split
    · rename_i hblank
      rw [hblank, columnCells_zero]
      simp
    · rw [cellsOfColumns, List.flatMap_cons, List.mem_append, ← cellsOfColumns]

/-- The columns of a band that are not blank are found by going through all columns. -/
theorem liveColumns_range_eq (hsorted : coords.Pairwise Coord.Before)
    (hnonneg : ∀ c ∈ coords, 0 ≤ c.x ∧ 0 ≤ c.y) {width : ℕ}
    (hwidth : ∀ c ∈ coords, c.x < width) :
    liveColumns 0 ((List.range width).map fun x : ℕ => .column (columnBits band coords x)) =
      bandColumns band (bandCells band coords) := by
  -- Both lists are ascending and have no blank column, so their cells decide.
  apply columns_eq_of_cells (pairwise_liveColumns 0 _) (pairwise_bandColumns hsorted hnonneg band)
    (fun _ h => (le_of_mem_liveColumns h).2) (fun _ => ne_zero_of_mem_bandColumns hnonneg)
  intro c
  rw [List.range_eq_range',
    mem_cellsOfColumns_liveColumns_iff fun x : ℕ => columnBits band coords x,
    mem_cellsOfColumns_iff hnonneg]
  simp only [mem_columnCells_columnBits_iff hnonneg, ← List.range_eq_range', List.mem_range]
  constructor
  · rintro ⟨x, -, -, hc⟩
    exact hc
  · intro hc
    have hlt := hwidth c hc.1
    have hx := Int.toNat_of_nonneg (hnonneg c hc.1).1
    exact ⟨c.x.toNat, by omega, hx.symm, hc⟩

end Pattern

/-! ## Rows that are found -/

section Rows

variable {row? : ℕ → ℕ → Option ℤ} {g h : Grid} {box : BoundingBox} {band height : ℕ}

/-- In each row that is computed for a band, the grid has the cells that it has in the
row that is meant. -/
def FindsRows (row? : ℕ → ℕ → Option ℤ) (g : Grid) (band : ℕ) : Prop :=
  ∀ height < bandHeight, ∃ row, row? band height = some row ∧
    ∀ x, g.contains ⟨x, row⟩ = g.contains ⟨x, bandRow band height⟩

theorem rasterColumn?_eq_some (hfinds : FindsRows row? g band) (x : ℤ) :
    rasterColumn? row? g band x = some (columnBits band g.coords x) := by
  have hbits : ∀ height ∈ List.range bandHeight,
      ((row? band height).map fun row => if g.contains ⟨x, row⟩ then Nat.pow 2 height else 0) =
        some (if g.contains ⟨x, bandRow band height⟩ then Nat.pow 2 height else 0) := by
    intro height hheight
    obtain ⟨row, hrow, hcells⟩ := hfinds height (List.mem_range.1 hheight)
    rw [hrow, Option.map_some, hcells]
  rw [rasterColumn?, mapM_eq_some_map hbits]
  rfl

theorem rasterColumn?_eq_none (hheight : height < bandHeight) (hrow : row? band height = none)
    (x : ℤ) : rasterColumn? row? g band x = none := by
  rw [rasterColumn?, mapM_eq_none (List.mem_range.2 hheight)]
  · rfl
  · rw [hrow]
    rfl

theorem rasterBand?_eq_some (hfinds : FindsRows row? g band)
    (hnonneg : ∀ c ∈ g.coords, 0 ≤ c.x ∧ 0 ≤ c.y) {width : ℤ}
    (hwidth : ∀ c ∈ g.coords, c.x < width) :
    rasterBand? row? g width band = some (bandTokens g.coords band) := by
  have hlt : ∀ c ∈ g.coords, c.x < width.toNat := by
    intro c hc
    have hx := (hnonneg c hc).1
    have hltWidth := hwidth c hc
    omega
  have hcolumns : ∀ x ∈ List.range width.toNat,
      rasterColumn? row? g band x = some (columnBits band g.coords x) :=
    fun x _ => rasterColumn?_eq_some hfinds x
  rw [rasterBand?, mapM_eq_some_map hcolumns, Option.map_some,
    rasterTokens_trimBlanks, rasterTokens_eq_columnTokens (Nat.le_refl 0), List.map_map]
  exact congrArg (fun columns => some (columnTokens 0 columns))
    (liveColumns_range_eq g.pairwise_coords hnonneg hlt)

theorem rasterBand?_eq_none (hheight : height < bandHeight) (hrow : row? band height = none)
    {width : ℤ} (hwidth : 1 ≤ width) : rasterBand? row? g width band = none := by
  have hfirst : 0 ∈ List.range width.toNat := by
    rw [List.mem_range]
    omega
  -- The row is the same for all columns, so already the first one misses it.
  rw [rasterBand?, mapM_eq_none hfirst (rasterColumn?_eq_none hheight hrow 0)]
  rfl

/-- If all rows are found, the code is the one that is written from the list of cells. -/
theorem raster?_eq_some (hfinds : ∀ h box, g.normalized = .ok h → h.boundingBox = .ok box →
      ∀ band < bandCount box.height, FindsRows row? h band) :
    raster? row? g = some (ofGrid g) := by
  rw [raster?]
  cases hnormalized : g.normalized with
  | error e =>
    rw [ofGrid, hnormalized]
    rfl
  | ok h =>
    rw [ofGrid_eq_atOrigin hnormalized, atOrigin]
    simp only
    split
    · rfl
    · cases hbox : h.boundingBox with
      | error e => rfl
      | ok box =>
        have hcorner := Grid.corner_of_normalized hnormalized hbox
        have hright := (BoundingBox.isTight_of_ofCoords hbox).le_right
        have hwidth : ∀ c ∈ h.coords, c.x < box.width := by
          intro c hc
          have hle := hright c hc
          rw [BoundingBox.maxX] at hle
          omega
        have hbands : ∀ band ∈ List.range (bandCount box.height),
            rasterBand? row? h box.width band = some (bandTokens h.coords band) := by
          intro band hband
          exact rasterBand?_eq_some (hfinds h box hnormalized hbox band (List.mem_range.1 hband))
            (Grid.atOrigin_of_normalized hnormalized).nonneg hwidth
        simp only [rasterPattern?, mapM_eq_some_map hbands, Option.map_some]
        rfl

theorem raster?_eq_none (hnormalized : g.normalized = .ok h) (hbox : h.boundingBox = .ok box)
    (hband : band < bandCount box.height) (hheight : height < bandHeight)
    (hrow : row? band height = none) : raster? row? g = none := by
  have htight := BoundingBox.isTight_of_ofCoords hbox
  have hempty : h.isEmpty = false := by
    obtain ⟨c, hc, -⟩ := htight.exists_left
    rw [Grid.coords, List.mem_map] at hc
    obtain ⟨cell, hcell, -⟩ := hc
    exact List.isEmpty_eq_false_iff.2 (List.ne_nil_of_mem hcell)
  have hpattern : rasterPattern? row? h box = none := by
    rw [rasterPattern?, mapM_eq_none (List.mem_range.2 hband)
      (rasterBand?_eq_none hheight hrow htight.one_le_width)]
    rfl
  rw [raster?, hnormalized]
  simp only [hempty, hbox, hpattern]
  rfl

end Rows

/-! ## The box of a pattern at the origin -/

section Boxes

variable {g h : Grid} {box moved : BoundingBox}

/-- Bringing a pattern to the origin does not change the height of its box. -/
theorem height_eq_of_normalized (hnormalized : g.normalized = .ok h)
    (hbox : g.boundingBox = .ok box) (hmoved : h.boundingBox = .ok moved) :
    moved.height = box.height := by
  have htight := BoundingBox.isTight_of_ofCoords hbox
  have hmovedTight := BoundingBox.isTight_of_ofCoords hmoved
  have htop := (Grid.corner_of_normalized hnormalized hmoved).2
  have hmem : ∀ d, d ∈ h.coords ↔ d + box.corner ∈ g.coords := fun d =>
    Grid.mem_coords_normalized_iff hnormalized hbox
  obtain ⟨bottom, hbottom, hmaxY⟩ := htight.exists_bottom
  obtain ⟨last, hlast, hlastY⟩ := hmovedTight.exists_bottom
  have hback : bottom - box.corner ∈ h.coords := by
    rwa [hmem, Coord.sub_add_cancel]
  have hbottomLe := hmovedTight.le_bottom _ hback
  have hlastLe := htight.le_bottom _ ((hmem last).1 hlast)
  simp only [BoundingBox.maxY, BoundingBox.corner, Coord.add_y, Coord.sub_y] at *
  omega

theorem exists_boundingBox_of_moved (hnormalized : g.normalized = .ok h)
    (hmoved : h.boundingBox = .ok moved) : ∃ box, g.boundingBox = .ok box :=
  (Grid.isCopy_of_normalized hnormalized).symm.exists_boundingBox hmoved

theorem exists_moved_of_boundingBox (hbox : g.boundingBox = .ok box) :
    ∃ h moved, g.normalized = .ok h ∧ h.boundingBox = .ok moved := by
  obtain ⟨h, hnormalized⟩ := Grid.exists_normalized (Grid.narrow_of_boundingBox hbox)
  obtain ⟨moved, hmoved⟩ := (Grid.isCopy_of_normalized hnormalized).exists_boundingBox hbox
  exact ⟨h, moved, hnormalized, hmoved⟩

end Boxes

/-! ## Rows in the span -/

section Arithmetic

variable {band height : ℕ}

/-- The row at a height of a band, if neither the first row of the band nor the sum
leaves the span. -/
def rowInSpan? (band height : ℕ) : Option ℤ :=
  (Coord.inSpan? ((band : ℤ) * bandHeight)).bind fun top => Coord.inSpan? (top + height)

/-- The row at a height of a band, computed in words of 64 bits. -/
def rowInWord (band height : ℕ) : ℤ :=
  (BitVec.ofNat 64 band * BitVec.ofNat 64 bandHeight + BitVec.ofNat 64 height).toInt

/-- The number of bands of a pattern, if no step leaves the span. -/
def bandCountInSpan? (height : ℤ) : Option ℤ :=
  (Coord.inSpan? (height - 1)).bind fun gap => Coord.inSpan? (gap / bandHeight + 1)

theorem rowInSpan?_eq (band height : ℕ) :
    rowInSpan? band height = Coord.inSpan? (bandRow band height) := by
  have hleast : Coord.least ≤ (band : ℤ) * bandHeight := by
    rw [Coord.least, bandHeight]
    omega
  rcases lt_or_ge Coord.greatest ((band : ℤ) * bandHeight) with hlt | hge
  · have hrow : Coord.greatest < bandRow band height := by
      rw [bandRow]
      omega
    rw [rowInSpan?, Coord.inSpan?_of_lt hlt, Coord.inSpan?_of_lt hrow]
    rfl
  · rw [rowInSpan?, Coord.inSpan?_of_mem hleast hge]
    rfl

theorem rowInSpan?_eq_some (hrow : bandRow band height ≤ Coord.greatest) :
    rowInSpan? band height = some (bandRow band height) := by
  have hleast : Coord.least ≤ bandRow band height := by
    rw [Coord.least, bandRow, bandHeight]
    omega
  rw [rowInSpan?_eq, Coord.inSpan?_of_mem hleast hrow]

theorem rowInSpan?_eq_none_iff :
    rowInSpan? band height = none ↔ Coord.greatest < bandRow band height := by
  constructor
  · intro hnone
    by_contra hle
    rw [rowInSpan?_eq_some (not_lt.1 hle)] at hnone
    cases hnone
  · intro hlt
    rw [rowInSpan?_eq, Coord.inSpan?_of_lt hlt]

theorem rowInWord_eq (band height : ℕ) :
    rowInWord band height = (bandRow band height).bmod (2 ^ 64) := by
  rw [rowInWord, ← BitVec.ofNat_mul, ← BitVec.ofNat_add, BitVec.toInt_ofNat', bandRow]
  simp only [Int.natCast_add, Int.natCast_mul]

theorem rowInWord_of_le (hrow : bandRow band height ≤ Coord.greatest) :
    rowInWord band height = bandRow band height := by
  have hnonneg : 0 ≤ bandRow band height := by
    rw [bandRow, bandHeight]
    omega
  rw [Coord.greatest] at hrow
  rw [rowInWord_eq, Int.bmod_eq_of_le] <;> omega

/-- A row that is not far below the span becomes one above all patterns at the origin. -/
theorem rowInWord_neg (hrow : Coord.greatest < bandRow band height)
    (hnear : bandRow band height < 2 ^ 64) : rowInWord band height < 0 := by
  rw [Coord.greatest] at hrow
  rw [rowInWord_eq, Int.bmod_def]
  split <;> omega

end Arithmetic

section Box

variable {g h : Grid} {box : BoundingBox} {band height : ℕ}

/-- The last band reaches at most four rows below the pattern. -/
theorem bandRow_lt (hband : band < bandCount box.height) (hheight : height < bandHeight) :
    bandRow band height < box.height + 4 := by
  simp only [bandCount, bandRow, bandHeight] at *
  omega

/-- The band that the end of the span cuts through starts two rows above it. -/
theorem exists_row_beyond_iff :
    (∃ band < bandCount box.height, ∃ height < bandHeight,
        Coord.greatest < bandRow band height) ↔ Coord.greatest - 1 ≤ box.height := by
  simp only [bandCount, bandRow, bandHeight, Coord.greatest]
  constructor
  · rintro ⟨band, hband, height, hheight, hrow⟩
    omega
  · intro hle
    exact ⟨1844674407370955161, by omega, 3, by decide, by decide⟩

theorem rows_in_span_iff :
    (∀ band < bandCount box.height, ∀ height < bandHeight,
        rowInSpan? band height = some (bandRow band height)) ↔
      box.height < Coord.greatest - 1 := by
  rw [← not_le, ← exists_row_beyond_iff]
  constructor
  · rintro hrows ⟨band, hband, height, hheight, hrow⟩
    have hsome := hrows band hband height hheight
    rw [rowInSpan?_eq_none_iff.2 hrow] at hsome
    cases hsome
  · intro hnone band hband height hheight
    apply rowInSpan?_eq_some
    by_contra hrow
    exact hnone ⟨band, hband, height, hheight, not_le.1 hrow⟩

theorem bandCountInSpan?_eq (hbox : g.boundingBox = .ok box) :
    bandCountInSpan? box.height = some (bandCount box.height : ℤ) := by
  have hpos := (BoundingBox.isTight_of_ofCoords hbox).one_le_height
  have hle := (BoundingBox.extents_le_of_ofCoords hbox).2
  have hcount : (bandCount box.height : ℤ) = (box.height - 1) / bandHeight + 1 := by
    simp only [bandCount, bandHeight]
    omega
  simp only [Coord.greatest] at hle
  rw [hcount, bandCountInSpan?, Coord.inSpan?_of_mem, Option.bind_some, Coord.inSpan?_of_mem] <;>
    simp only [Coord.least, Coord.greatest, bandHeight] <;> omega

/-- Rows that are computed in words are those that are meant, or they lie above a pattern
at the origin while those lie below it. -/
theorem findsRows_rowInWord (hnormalized : g.normalized = .ok h)
    (hbox : h.boundingBox = .ok box) (hband : band < bandCount box.height) :
    FindsRows (fun band height => some (rowInWord band height)) h band := by
  intro height hheight
  refine ⟨_, rfl, fun x => ?_⟩
  rcases le_or_gt (bandRow band height) Coord.greatest with hrow | hrow
  · rw [rowInWord_of_le hrow]
  · have hnear := bandRow_lt hband hheight
    have hle := (BoundingBox.extents_le_of_ofCoords hbox).2
    have hneg : rowInWord band height < 0 := by
      apply rowInWord_neg hrow
      rw [Coord.greatest] at hle
      omega
    -- The one row is above the pattern, the other below it, and neither has a cell.
    have habove : (⟨x, rowInWord band height⟩ : Coord) ∉ h.coords := by
      intro hc
      have hnonneg : 0 ≤ rowInWord band height :=
        ((Grid.atOrigin_of_normalized hnormalized).nonneg _ hc).2
      omega
    have hbelow : (⟨x, bandRow band height⟩ : Coord) ∉ h.coords := by
      intro hc
      have htop := (Grid.corner_of_normalized hnormalized hbox).2
      have hbottom := (BoundingBox.isTight_of_ofCoords hbox).le_bottom _ hc
      simp only [BoundingBox.maxY] at hbottom
      omega
    rw [Bool.eq_iff_iff, Grid.contains, Grid.contains, List.contains_iff_mem,
      List.contains_iff_mem]
    exact iff_of_false habove hbelow

theorem findsRows_rowInSpan? (hrows : box.height < Coord.greatest - 1)
    (hband : band < bandCount box.height) : FindsRows rowInSpan? h band := fun height hheight =>
  ⟨_, rows_in_span_iff.2 hrows band hband height hheight, fun _ => rfl⟩

theorem raster?_rowInSpan?_eq_none (hbox : g.boundingBox = .ok box)
    (htall : Coord.greatest - 1 ≤ box.height) : raster? rowInSpan? g = none := by
  obtain ⟨h, moved, hnormalized, hmoved⟩ := exists_moved_of_boundingBox hbox
  rw [← height_eq_of_normalized hnormalized hbox hmoved, ← exists_row_beyond_iff] at htall
  obtain ⟨band, hband, height, hheight, hrow⟩ := htall
  exact raster?_eq_none hnormalized hmoved hband hheight (rowInSpan?_eq_none_iff.2 hrow)

theorem raster?_rowInSpan?_eq_some
    (hlow : ∀ box, g.boundingBox = .ok box → box.height < Coord.greatest - 1) :
    raster? rowInSpan? g = some (ofGrid g) := by
  apply raster?_eq_some
  intro h moved hnormalized hmoved band hband
  obtain ⟨box, hbox⟩ := exists_boundingBox_of_moved hnormalized hmoved
  have hheight := height_eq_of_normalized hnormalized hbox hmoved
  exact findsRows_rowInSpan? (hheight.trans_lt (hlow box hbox)) hband

theorem raster?_rowInSpan?_eq_none_iff :
    raster? rowInSpan? g = none ↔
      ∃ box, g.boundingBox = .ok box ∧ Coord.greatest - 1 ≤ box.height := by
  constructor
  · intro hnone
    by_contra hlow
    push Not at hlow
    rw [raster?_rowInSpan?_eq_some hlow] at hnone
    cases hnone
  · rintro ⟨box, hbox, htall⟩
    exact raster?_rowInSpan?_eq_none hbox htall

theorem eq_of_raster?_rowInSpan? {result : Except GridError Apgcode}
    (hresult : raster? rowInSpan? g = some result) : result = ofGrid g := by
  have hlow : ∀ box, g.boundingBox = .ok box → box.height < Coord.greatest - 1 := by
    intro box hbox
    by_contra htall
    rw [raster?_rowInSpan?_eq_none hbox (not_lt.1 htall)] at hresult
    cases hresult
  rw [raster?_rowInSpan?_eq_some hlow] at hresult
  exact (Option.some.inj hresult).symm

/-- A pattern that exceeds the span has no box, and this is said before any row is
looked into. -/
theorem raster?_rowInSpan?_eq_error_iff {e : GridError} :
    raster? rowInSpan? g = some (.error e) ↔ g.ExceedsSpan ∧ e = .coordinateOverflow := by
  rw [← failsOnExcess_ofGrid]
  constructor
  · exact fun hresult => (eq_of_raster?_rowInSpan? hresult).symm
  · intro herror
    have hexceeds := ((failsOnExcess_ofGrid g e).1 herror).1
    rw [raster?_rowInSpan?_eq_some, herror]
    exact fun box hbox => absurd hexceeds (Grid.not_exceedsSpan_of_boundingBox hbox)

/-- Arithmetic that wraps around writes the code of every pattern. -/
theorem raster?_rowInWord_eq (g : Grid) :
    raster? (fun band height => some (rowInWord band height)) g = some (ofGrid g) :=
  raster?_eq_some fun _ _ hnormalized hbox _ hband =>
    findsRows_rowInWord hnormalized hbox hband

/-- **Only the tallest patterns have rows of bands that are not in the span.**  The number
of bands is always found there, and so are all rows that are looked into unless the height
of the pattern is the greatest number of the span or the one before it.  Such a pattern
has a code, but writing it cell by cell ends at a row below the pattern if the arithmetic
checks its results.  Otherwise the code that is written is that from the list of cells,
and the only fault is that of a pattern that exceeds the span.  Arithmetic that wraps
around writes the code of every pattern. -/
theorem raster_ends_on_tallest (g : Grid) :
    (∀ box, g.boundingBox = .ok box →
      bandCountInSpan? box.height = some (bandCount box.height : ℤ) ∧
      ((∀ band < bandCount box.height, ∀ height < bandHeight,
          rowInSpan? band height = some (bandRow band height)) ↔
        box.height < Coord.greatest - 1)) ∧
    (raster? rowInSpan? g = none ↔
      ∃ box, g.boundingBox = .ok box ∧ Coord.greatest - 1 ≤ box.height) ∧
    (∀ result, raster? rowInSpan? g = some result → result = ofGrid g) ∧
    (∀ e, raster? rowInSpan? g = some (.error e) ↔
      g.ExceedsSpan ∧ e = .coordinateOverflow) ∧
    raster? (fun band height => some (rowInWord band height)) g = some (ofGrid g) :=
  ⟨fun _ hbox => ⟨bandCountInSpan?_eq hbox, rows_in_span_iff⟩,
    raster?_rowInSpan?_eq_none_iff, fun _ => eq_of_raster?_rowInSpan?,
    fun _ => raster?_rowInSpan?_eq_error_iff, raster?_rowInWord_eq g⟩

end Box

/-- Two cells, as far above each other as they can be in a pattern. -/
def tallestPair : Grid :=
  .ofCoords [⟨0, 0⟩, ⟨0, Coord.greatest - 1⟩]

/-- The pattern lies at the origin and has a code.  Its last band starts two rows above the
end of the span, and the second row below the pattern, which is not in the span, is looked
into. -/
theorem tallestPair_ends_raster :
    tallestPair.normalized = .ok tallestPair ∧
      tallestPair.boundingBox = .ok ⟨0, 0, 1, Coord.greatest⟩ ∧
      (∃ code, ofGrid tallestPair = .ok code) ∧
      1844674407370955161 < bandCount Coord.greatest ∧
      bandRow 1844674407370955161 3 = Coord.greatest + 1 ∧
      rowInSpan? 1844674407370955161 3 = none ∧
      raster? rowInSpan? tallestPair = none := by
  have hnormalized : tallestPair.normalized = .ok tallestPair := by decide +kernel
  have hbox : tallestPair.boundingBox = .ok ⟨0, 0, 1, Coord.greatest⟩ := by decide +kernel
  have hcode : ∃ code, ofGrid tallestPair = .ok code := by
    rw [ofGrid_eq_atOrigin hnormalized]
    exact exists_atOrigin hnormalized
  have hrow : bandRow 1844674407370955161 3 = Coord.greatest + 1 := by decide
  have hbeyond : rowInSpan? 1844674407370955161 3 = none :=
    rowInSpan?_eq_none_iff.2 (hrow.symm ▸ Int.lt_succ Coord.greatest)
  exact ⟨hnormalized, hbox, hcode, by decide, hrow, hbeyond,
    raster?_rowInSpan?_eq_none hbox (Int.sub_le_self Coord.greatest (by decide))⟩

end Apgcode

end Cellular
