import Mathlib.Algebra.GroupWithZero.Nat
import Mathlib.Data.List.Pairwise
import Mathlib.Data.Nat.Notation
import Cellular.Pattern.Apgcode.Writer
import Cellular.Proofs.Arrangement
import Cellular.Proofs.Grid

/-!
# Reading back the code of a pattern

Tokens are read from left to right, so what a run of blank columns, the columns
of a band and the bands themselves do to the reader is said for any tokens that
follow.  A column's bits are the cells of the column, and each cell of a pattern
at the origin lies in one column of one band.
-/

namespace Cellular

namespace Apgcode

/-! ## Columns -/

/-- The bits of a sum of distinct powers of two. -/
theorem testBit_sum_bits (b : ℕ → Bool) {h : ℕ} (hh : h < bandHeight) :
    (Fin.ofNat 32 (((List.range bandHeight).map fun i =>
      if b i then 2 ^ i else 0).sum)).val.testBit h = b h := by
  have hrange : List.range bandHeight = [0, 1, 2, 3, 4] := rfl
  simp only [hrange, List.map_cons, List.map_nil, List.sum_cons, List.sum_nil]
  have hcases : h = 0 ∨ h = 1 ∨ h = 2 ∨ h = 3 ∨ h = 4 := by
    rw [bandHeight] at hh
    omega
  rcases hcases with rfl | rfl | rfl | rfl | rfl <;>
    cases b 0 <;> cases b 1 <;> cases b 2 <;> cases b 3 <;> cases b 4 <;> rfl

theorem testBit_columnBits (band : ℕ) (cells : List Coord) (x : Int) {h : ℕ}
    (hh : h < bandHeight) :
    (columnBits band cells x).val.testBit h = cells.contains ⟨x, bandRow band h⟩ :=
  testBit_sum_bits _ hh

theorem mem_columnCells_iff {band x : ℕ} {bits : Fin 32} {c : Coord} :
    c ∈ columnCells band x bits ↔
      c.x = x ∧ ∃ h < bandHeight, bits.val.testBit h = true ∧
        c.y = bandRow band h := by
  simp only [columnCells, List.mem_map, List.mem_filter, List.mem_range]
  constructor
  · rintro ⟨h, ⟨hh, hbit⟩, rfl⟩
    exact ⟨rfl, h, hh, hbit, rfl⟩
  · rintro ⟨hx, h, hh, hbit, hy⟩
    exact ⟨h, ⟨hh, hbit⟩, Coord.ext_iff.2 ⟨hx.symm, hy.symm⟩⟩

theorem columnCells_zero (band x : ℕ) : columnCells band x 0 = [] := by
  apply List.eq_nil_iff_forall_not_mem.2
  intro c hc
  obtain ⟨-, h, -, hbit, -⟩ := mem_columnCells_iff.1 hc
  simp at hbit

/-- The row of a point tells its band and its height there. -/
theorem exists_bandRow_iff {y : Int} (hy : 0 ≤ y) (band : ℕ) :
    y / bandHeight = band ↔ ∃ h < bandHeight, y = bandRow band h := by
  simp only [bandRow, bandHeight]
  constructor
  · intro hband
    exact ⟨(y % 5).toNat, by omega, by omega⟩
  · rintro ⟨h, hh, rfl⟩
    omega

/-! ## Runs of blank columns -/

theorem cellsFrom_replicate (band x n : ℕ) (rest : List CodeToken) :
    cellsFrom band x (List.replicate n (.blankRun 35) ++ rest) =
      cellsFrom band (x + 39 * n) rest := by
  induction n generalizing x with
  | zero => rfl
  | succ n ih =>
    rw [List.replicate_succ, List.cons_append, cellsFrom, ih]
    congr 1
    simp only [Fin.isValue, Fin.coe_ofNat_eq_mod]
    omega

/-- A run of blank columns moves the reader by its length. -/
theorem cellsFrom_blankTokens (band x run : ℕ) (rest : List CodeToken) :
    cellsFrom band x (blankTokens run ++ rest) = cellsFrom band (x + run) rest := by
  have hsplit : run = 39 * (run / 39) + run % 39 := by omega
  have hlt : run % 39 < 39 := by omega
  rw [blankTokens, List.append_assoc, cellsFrom_replicate]
  split
  · rename_i hmod
    rw [List.nil_append]
    congr 1
    omega
  · rename_i hmod
    rw [List.singleton_append, cellsFrom, columnCells_zero, List.nil_append]
    congr 1
    omega
  · rename_i hmod
    rw [List.singleton_append, cellsFrom]
    congr 1
    omega
  · rename_i hmod
    rw [List.singleton_append, cellsFrom]
    congr 1
    omega
  · rename_i more h0 h1 h2 h3
    have hmore : (Fin.ofNat 36 (run % 39 - 4)).val = run % 39 - 4 :=
      Nat.mod_eq_of_lt (by omega)
    rw [List.singleton_append, cellsFrom, hmore]
    congr 1
    simp only [imp_false] at h0 h1 h2 h3
    omega

/-! ## Bands -/

/-- The cells of the columns of a band. -/
def cellsOfColumns (band : ℕ) (columns : List (ℕ × Fin 32)) : List Coord :=
  columns.flatMap fun column => columnCells band column.1 column.2

/-- Columns in ascending order are read back one by one. -/
theorem cellsFrom_columnTokens (band : ℕ) {x : ℕ} {columns : List (ℕ × Fin 32)}
    (hsorted : columns.Pairwise fun a b => a.1 < b.1)
    (hfirst : ∀ column ∈ columns, x ≤ column.1) :
    ∃ last, ∀ rest, cellsFrom band x (columnTokens x columns ++ rest) =
      cellsOfColumns band columns ++ cellsFrom band last rest := by
  induction columns generalizing x with
  | nil => exact ⟨x, fun rest => rfl⟩
  | cons column columns ih =>
    rw [List.pairwise_cons] at hsorted
    obtain ⟨last, hlast⟩ := ih hsorted.2 hsorted.1
    have hx : x + (column.1 - x) = column.1 := by
      have hle := hfirst column List.mem_cons_self
      omega
    use last
    intro rest
    calc
      cellsFrom band x (columnTokens x (column :: columns) ++ rest) =
          cellsFrom band x (blankTokens (column.1 - x) ++
            .column column.2 :: (columnTokens (column.1 + 1) columns ++ rest)) := by
        rw [columnTokens, List.append_assoc, List.cons_append]
      _ = columnCells band column.1 column.2 ++ cellsFrom band (column.1 + 1)
            (columnTokens (column.1 + 1) columns ++ rest) := by
        rw [cellsFrom_blankTokens, hx, cellsFrom]
      _ = cellsOfColumns band (column :: columns) ++ cellsFrom band last rest := by
        rw [hlast, cellsOfColumns, cellsOfColumns, List.flatMap_cons, List.append_assoc]

/-- Bands that are read back one by one are read back in a row. -/
theorem cellsFrom_bands {tokens : ℕ → List CodeToken} {cells : ℕ → List Coord}
    (hband : ∀ band, ∃ last, ∀ rest, cellsFrom band 0 (tokens band ++ rest) =
      cells band ++ cellsFrom band last rest) (first n : ℕ) :
    cellsFrom first 0 ([.endBand].intercalate ((List.range' first n).map tokens)) =
      (List.range' first n).flatMap cells := by
  induction n generalizing first with
  | zero => rfl
  | succ n ih =>
    obtain ⟨last, hlast⟩ := hband first
    rw [List.range'_succ, List.map_cons, List.flatMap_cons]
    cases n with
    | zero =>
      have hend := hlast []
      rw [List.append_nil, cellsFrom] at hend
      rw [List.range'_zero, List.map_nil, List.intercalate_singleton, hend]
      rfl
    | succ n =>
      have hrest := ih (first + 1)
      rw [List.range'_succ, List.map_cons] at hrest ⊢
      calc
        cellsFrom first 0 ([.endBand].intercalate (tokens first ::
            tokens (first + 1) :: (List.range' (first + 1 + 1) n).map tokens)) =
          cellsFrom first 0 (tokens first ++ .endBand ::
            [.endBand].intercalate (tokens (first + 1) ::
              (List.range' (first + 1 + 1) n).map tokens)) := by
          rw [List.intercalate_cons_cons, List.append_assoc, List.singleton_append]
        _ = cells first ++ cellsFrom (first + 1) 0
            ([.endBand].intercalate (tokens (first + 1) ::
              (List.range' (first + 1 + 1) n).map tokens)) := by
          rw [hlast, cellsFrom]
        _ = _ := by rw [hrest]

/-! ## Patterns at the origin -/

/-- Removing repetitions makes an ascending list strictly ascending. -/
theorem pairwise_eraseDups {l : List Int} (h : l.Pairwise (· ≤ ·)) :
    l.eraseDups.Pairwise (· < ·) := by
  obtain ⟨firsts, hfirsts, hordered, -⟩ := listedByFirst_eraseDups id h
  rw [List.map_id, List.map_id] at hfirsts
  have hnodup := nodup_eraseDups l
  rw [hfirsts] at hnodup ⊢
  exact (hordered.and hnodup).imp fun ⟨hle, hne⟩ => lt_of_le_of_ne hle hne

section Pattern

variable {coords : List Coord}

theorem pairwise_bandColumns (hsorted : coords.Pairwise Coord.Before)
    (hnonneg : ∀ c ∈ coords, 0 ≤ c.x ∧ 0 ≤ c.y) (band : ℕ) :
    (bandColumns band (bandCells band coords)).Pairwise fun a b => a.1 < b.1 := by
  have hxs : ((bandCells band coords).map Coord.x).Pairwise (· ≤ ·) := by
    rw [List.pairwise_map]
    apply (hsorted.sublist List.filter_sublist).imp
    intro c d hbefore
    rw [Coord.Before] at hbefore
    omega
  rw [bandColumns, List.pairwise_map]
  apply (pairwise_eraseDups hxs).imp_of_mem
  intro x y hx hy hlt
  have hnonnegX : ∀ x ∈ ((bandCells band coords).map Coord.x).eraseDups, 0 ≤ x := by
    intro x hx
    obtain ⟨c, hc, rfl⟩ := List.mem_map.1 (List.mem_eraseDups.1 hx)
    exact (hnonneg c (List.mem_filter.1 hc).1).1
  have hx0 := hnonnegX x hx
  simp only
  omega

/-- The columns of a band hold the cells of the band. -/
theorem mem_cellsOfColumns_iff (hnonneg : ∀ c ∈ coords, 0 ≤ c.x ∧ 0 ≤ c.y)
    {band : ℕ} {c : Coord} :
    c ∈ cellsOfColumns band (bandColumns band (bandCells band coords)) ↔
      c ∈ coords ∧ c.y / bandHeight = band := by
  have hcell : ∀ {d : Coord}, d ∈ bandCells band coords ↔
      d ∈ coords ∧ d.y / bandHeight = band := by
    intro d
    rw [bandCells, List.mem_filter, decide_eq_true_iff]
  have hx : ∀ d ∈ bandCells band coords, (d.x.toNat : Int) = d.x := by
    intro d hd
    exact Int.toNat_of_nonneg (hnonneg d (hcell.1 hd).1).1
  rw [← hcell]
  simp only [cellsOfColumns, bandColumns, List.mem_flatMap, List.mem_map,
    List.mem_eraseDups]
  constructor
  · rintro ⟨_, ⟨_, ⟨d, hd, rfl⟩, rfl⟩, hc⟩
    obtain ⟨hcx, h, hh, hbit, hcy⟩ := mem_columnCells_iff.1 hc
    rw [testBit_columnBits _ _ _ hh, List.contains_iff_mem] at hbit
    have heq : c = ⟨d.x, bandRow band h⟩ :=
      Coord.ext_iff.2 ⟨hcx.trans (hx d hd), hcy⟩
    exact heq ▸ hbit
  · intro hc
    have hy := (hnonneg c (hcell.1 hc).1).2
    obtain ⟨h, hh, hcy⟩ := (exists_bandRow_iff hy band).1 (hcell.1 hc).2
    refine ⟨_, ⟨c.x, ⟨c, hc, rfl⟩, rfl⟩, mem_columnCells_iff.2 ?_⟩
    have heq : c = ⟨c.x, bandRow band h⟩ := Coord.ext_iff.2 ⟨rfl, hcy⟩
    refine ⟨(hx c hc).symm, h, hh, ?_, hcy⟩
    rw [testBit_columnBits _ _ _ hh, List.contains_iff_mem, ← heq]
    exact hc

/-- The tokens of a pattern at the origin describe the cells of the pattern. -/
theorem mem_cellsFrom_patternTokens_iff (hsorted : coords.Pairwise Coord.Before)
    (hnonneg : ∀ c ∈ coords, 0 ≤ c.x ∧ 0 ≤ c.y) {bands : ℕ}
    (hbands : ∀ c ∈ coords, c.y / bandHeight < bands) {c : Coord} :
    c ∈ cellsFrom 0 0 (patternTokens coords bands) ↔ c ∈ coords := by
  have hband : ∀ band, ∃ last, ∀ rest,
      cellsFrom band 0 (bandTokens coords band ++ rest) =
        cellsOfColumns band (bandColumns band (bandCells band coords)) ++
          cellsFrom band last rest := fun band =>
    cellsFrom_columnTokens band (pairwise_bandColumns hsorted hnonneg band)
      fun _ _ => Nat.zero_le _
  rw [patternTokens, List.range_eq_range', cellsFrom_bands hband, List.mem_flatMap]
  simp only [mem_cellsOfColumns_iff hnonneg, List.mem_range'_1]
  constructor
  · rintro ⟨band, -, hc, -⟩
    exact hc
  · intro hc
    have hlt := hbands c hc
    have hy := (hnonneg c hc).2
    have hdiv : 0 ≤ c.y / bandHeight := by
      rw [bandHeight]
      omega
    exact ⟨(c.y / bandHeight).toNat, by omega, hc, by omega⟩

end Pattern

/-! ## The round trip -/

/-- The code of a pattern that lies at the origin. -/
def atOrigin (h : Grid) : Except GridError Apgcode :=
  if h.isEmpty then .ok blank
  else h.boundingBox.map fun box =>
    ofTokens (patternTokens h.coords (bandCount box.height))

theorem ofGrid_eq_atOrigin {g h : Grid} (hnormalized : g.normalized = .ok h) :
    ofGrid g = atOrigin h := by
  rw [ofGrid, hnormalized, atOrigin]
  simp only [bind, Except.bind, pure, Except.pure]
  split
  · rfl
  · cases h.boundingBox <;> rfl

theorem exists_normalized_of_ofGrid {g : Grid} {code : Apgcode}
    (hcode : ofGrid g = .ok code) : ∃ h, g.normalized = .ok h := by
  cases hnormalized : g.normalized with
  | ok h => exact ⟨h, rfl⟩
  | error e =>
    rw [ofGrid, hnormalized] at hcode
    cases hcode

/-- The states of live cells do not enter a code. -/
theorem atOrigin_congr {h k : Grid} (hcoords : h.coords = k.coords) :
    atOrigin h = atOrigin k := by
  have hempty : ∀ g : Grid, g.isEmpty = g.coords.isEmpty := fun g =>
    (List.isEmpty_map).symm
  rw [atOrigin, atOrigin, hempty, hempty, Grid.boundingBox, Grid.boundingBox,
    hcoords]

theorem toGrid_ofTokens (tokens : List CodeToken) :
    (ofTokens tokens).toGrid = .ofCoords (cellsFrom 0 0 tokens) := by
  rw [ofTokens]
  split
  · rename_i hnil
    rw [hnil]
    rfl
  · rfl

/-- The bands of a box of a pattern at the origin hold its cells. -/
theorem div_bandHeight_lt_bandCount {h : Grid} {box : BoundingBox}
    (hbox : h.boundingBox = .ok box) (hy : box.y = 0) :
    ∀ c ∈ h.coords, c.y / bandHeight < bandCount box.height := by
  intro c hc
  have htight := BoundingBox.isTight_of_ofCoords hbox
  have htop := htight.top_le c hc
  have hbottom := htight.le_bottom c hc
  simp only [BoundingBox.maxY] at hbottom
  simp only [bandCount, bandHeight]
  omega

/-- The code of a pattern at the origin describes its live cells. -/
theorem toGrid_of_atOrigin {g h : Grid} {code : Apgcode}
    (hnormalized : g.normalized = .ok h) (hcode : atOrigin h = .ok code) :
    code.toGrid = h.presence := by
  rw [atOrigin] at hcode
  split at hcode
  · rename_i hempty
    cases hcode
    have hnil : h.coords = [] := by
      rw [Grid.coords, List.isEmpty_iff.1 hempty]
      rfl
    rw [Grid.presence, hnil]
    rfl
  · cases hbox : h.boundingBox with
    | error e =>
      rw [hbox] at hcode
      cases hcode
    | ok box =>
      rw [hbox] at hcode
      cases hcode
      have hcorner := Grid.corner_of_normalized hnormalized hbox
      rw [toGrid_ofTokens, Grid.presence]
      apply Grid.ofCoords_congr
      intro c
      exact mem_cellsFrom_patternTokens_iff h.pairwise_coords
        (Grid.atOrigin_of_normalized hnormalized).nonneg
        (div_bandHeight_lt_bandCount hbox hcorner.2)

theorem decode_text (code : Apgcode) :
    decode (String.ofList code.text) = .ok code.toGrid := by
  rw [decode, parse, String.toList_ofList, ofText_text]
  rfl

theorem text_inj {code other : Apgcode} :
    other.text = code.text ↔ other = code := by
  constructor
  · intro htext
    have hread : ofText other.text = ofText code.text := congrArg ofText htext
    rw [ofText_text, ofText_text, Except.ok.injEq] at hread
    exact hread
  · exact congrArg text

/-- Codes are equal exactly when the patterns at the origin have the same
cells. -/
theorem text_eq_iff {g other : Grid} {code otherCode : Apgcode}
    (hcode : ofGrid g = .ok code) (hother : ofGrid other = .ok otherCode) :
    otherCode.text = code.text ↔
      other.presence.normalized = g.presence.normalized := by
  obtain ⟨h, hnormalized⟩ := exists_normalized_of_ofGrid hcode
  obtain ⟨k, hotherNormalized⟩ := exists_normalized_of_ofGrid hother
  rw [ofGrid_eq_atOrigin hnormalized] at hcode
  rw [ofGrid_eq_atOrigin hotherNormalized] at hother
  rw [text_inj, Grid.presence_normalized hnormalized,
    Grid.presence_normalized hotherNormalized, Except.ok.injEq]
  constructor
  · rintro rfl
    rw [← toGrid_of_atOrigin hnormalized hcode,
      ← toGrid_of_atOrigin hotherNormalized hother]
  · intro hpresence
    have hcoords : k.coords = h.coords := by
      rw [← Grid.coords_presence k, ← Grid.coords_presence h, hpresence]
    rw [atOrigin_congr hcoords, hcode, Except.ok.injEq] at hother
    exact hother.symm

/-- A code reads back as the pattern it was written for, brought to the origin
and with every live cell in state 1; two patterns have one code exactly when
they agree in that form. -/
theorem decode_ofGrid {g : Grid} {code : Apgcode} (hcode : ofGrid g = .ok code) :
    ∃ pattern corner,
      decode (String.ofList code.text) = .ok pattern ∧
      g.presence.normalized = .ok pattern ∧
      (∀ c, pattern.state c = if g.state (c + corner) = 0 then 0 else 1) ∧
      (∀ box, g.boundingBox = .ok box → corner = box.corner) ∧
      (∀ box, pattern.boundingBox = .ok box → box.x = 0 ∧ box.y = 0) ∧
      ∀ {other otherCode}, ofGrid other = .ok otherCode →
        (otherCode.text = code.text ↔
          other.presence.normalized = g.presence.normalized) := by
  obtain ⟨h, hnormalized⟩ := exists_normalized_of_ofGrid hcode
  have horigin := hcode
  rw [ofGrid_eq_atOrigin hnormalized] at horigin
  have hpresence := Grid.presence_normalized hnormalized
  have hdecode : decode (String.ofList code.text) = .ok h.presence := by
    rw [decode_text, toGrid_of_atOrigin hnormalized horigin]
  have hbox : ∀ box, h.presence.boundingBox = .ok box → box.x = 0 ∧ box.y = 0 := by
    intro box hbox
    exact Grid.corner_of_normalized hpresence hbox
  rcases Grid.normalized_eq_ok hnormalized with ⟨hnil, rfl⟩ | ⟨box, hsource, -⟩
  · have hblank : ∀ c, g.state c = 0 := by
      intro c
      rw [← Decidable.not_not (p := g.state c = 0), ← ne_eq,
        ← Grid.mem_coords_iff, hnil]
      exact List.not_mem_nil
    refine ⟨_, ⟨0, 0⟩, hdecode, hpresence, ?_, ?_, hbox, text_eq_iff hcode⟩
    · intro c
      rw [Grid.state_presence, hblank]
      rfl
    · intro box hsource
      rw [Grid.boundingBox, hnil] at hsource
      cases hsource
  · refine ⟨_, box.corner, hdecode, hpresence, ?_, ?_, hbox, text_eq_iff hcode⟩
    · intro c
      rw [Grid.state_presence, Grid.state_normalized hnormalized hsource]
    · intro other hother
      rw [hsource, Except.ok.injEq] at hother
      rw [hother]

/-- Two cells, 39 columns and one band apart: the second band is written as a
longest run of blank columns right after the end of the first. -/
def distantCells : Grid :=
  .ofCells [(⟨3, 4⟩, 2), (⟨42, 9⟩, 1)]

theorem distantCells_read_back :
    (ofGrid distantCells).map text = .ok "1zyz1".toList ∧
      decode "1zyz1" = .ok (.ofCoords [⟨0, 0⟩, ⟨39, 5⟩]) := by
  let code := ofTokens [.column 1, .endBand, .blankRun 35, .column 1]
  have hcode : ofGrid distantCells = .ok code := by decide
  obtain ⟨pattern, -, hdecode, hpresence, -⟩ := decode_ofGrid hcode
  have hpattern : distantCells.presence.normalized =
      .ok (.ofCoords [⟨0, 0⟩, ⟨39, 5⟩]) := by decide
  rw [hpresence, Except.ok.injEq] at hpattern
  refine ⟨?_, ?_⟩
  · rw [hcode]
    rfl
  · rw [← hpattern]
    exact hdecode

end Apgcode

end Cellular
