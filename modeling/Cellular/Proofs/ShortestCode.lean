import Mathlib.Algebra.Order.BigOperators.Group.List
import Cellular.Proofs.CodeLanguage
import Cellular.Proofs.Position

/-!
# Shortest codes

The code that is written for a pattern at the origin is as short as any text that
describes the pattern.  The band of a column and the columns of a band are given, so only
the blanks between two columns can be said in several ways; the longest single token
covers them best, since no two characters cover more than it.
-/

namespace Cellular

/-- The number of columns from the start of a token to the start of the next one. -/
def CodeToken.width : CodeToken → ℕ
  | column _ => 1
  | blankPair => 2
  | blankTriple => 3
  | blankRun more => 4 + more.val
  | endBand => 0

namespace Apgcode

/-- The number of characters of some tokens. -/
def size (tokens : List CodeToken) : ℕ :=
  (tokens.flatMap CodeToken.write).length

@[simp]
theorem size_nil : size [] = 0 := rfl

@[simp]
theorem size_cons (token : CodeToken) (tokens : List CodeToken) :
    size (token :: tokens) = token.write.length + size tokens := by
  rw [size, List.flatMap_cons, List.length_append, size]

@[simp]
theorem size_append (tokens rest : List CodeToken) :
    size (tokens ++ rest) = size tokens + size rest := by
  rw [size, List.flatMap_append, List.length_append, size, size]

/-! ## Blank columns -/

theorem size_replicate (n : ℕ) (token : CodeToken) :
    size (List.replicate n token) = n * token.write.length := by
  induction n with
  | zero => simp
  | succ n ih => rw [List.replicate_succ, size_cons, ih, Nat.succ_mul, Nat.add_comm]

/-- After the longest tokens, one character covers up to three columns and two characters
cover any number of them that is left. -/
theorem size_blankTokens (run : ℕ) :
    size (blankTokens run) = 2 * (run / 39) + min 1 (run % 39) + min 1 (run % 39 - 3) := by
  rw [blankTokens, size_append, size_replicate, CodeToken.write, Nat.mul_comm, Nat.add_assoc]
  congr 1
  split
  case h_1 hrest | h_2 hrest | h_3 hrest | h_4 hrest =>
    rw [hrest]
    rfl
  case h_5 rest h0 h1 h2 h3 =>
    simp only [size_cons, size_nil, CodeToken.write, List.length_cons, List.length_nil]
    simp only [imp_false] at h0 h1 h2 h3
    omega

/-- Whatever token is put after a run of blank columns, a run that covers both is not
longer. -/
theorem size_blankTokens_add_le (run : ℕ) (token : CodeToken) :
    size (blankTokens (run + token.width)) ≤ size (blankTokens run) + token.write.length := by
  rw [size_blankTokens, size_blankTokens]
  cases token with
  | column bits | blankPair | blankTriple | endBand =>
    simp only [CodeToken.width, CodeToken.write, List.length_singleton]
    omega
  | blankRun more =>
    simp only [CodeToken.width, CodeToken.write, List.length_cons, List.length_nil]
    omega

/-! ## Columns of a band -/

/-- The columns with live cells that the tokens of a band describe, from a column on. -/
def liveColumns (x : ℕ) : List CodeToken → List (ℕ × Fin 32)
  | [] => []
  | .column bits :: rest =>
    if bits = 0 then liveColumns (x + 1) rest else (x, bits) :: liveColumns (x + 1) rest
  | token :: rest => liveColumns (x + token.width) rest

/-- Columns are not said in fewer characters than they are written in.  The columns before
`x` are written, those before `y` are read. -/
theorem size_columnTokens_le {x y : ℕ} (hxy : x ≤ y) (tokens : List CodeToken) :
    size (columnTokens x (liveColumns y tokens)) ≤
      size (blankTokens (y - x)) + size tokens := by
  induction tokens generalizing x y with
  | nil => simp [liveColumns, columnTokens]
  | cons token rest ih =>
    -- A token without live cells makes the run of blanks before the next column longer.
    have hblank : size (columnTokens x (liveColumns (y + token.width) rest)) ≤
        size (blankTokens (y - x)) + size (token :: rest) := by
      have hrest := ih (Nat.le_add_right_of_le (k := token.width) hxy)
      have hrun := size_blankTokens_add_le (y - x) token
      rw [← Nat.sub_add_comm hxy] at hrun
      rw [size_cons]
      omega
    cases token with
    | column bits =>
      rw [liveColumns]
      split
      · exact hblank
      · have hrest := ih (Nat.le_refl (y + 1))
        rw [Nat.sub_self] at hrest
        rw [columnTokens, size_append, size_cons, size_cons]
        have hzero : size (blankTokens 0) = 0 := rfl
        omega
    | blankPair | blankTriple | blankRun more | endBand => exact hblank

theorem le_of_mem_liveColumns {x : ℕ} {tokens : List CodeToken} {column : ℕ × Fin 32}
    (hcolumn : column ∈ liveColumns x tokens) : x ≤ column.1 ∧ column.2 ≠ 0 := by
  induction tokens generalizing x with
  | nil => cases hcolumn
  | cons token rest ih =>
    cases token with
    | column bits =>
      rw [liveColumns] at hcolumn
      split at hcolumn
      · have hrest := ih hcolumn
        omega
      · rename_i hbits
        rcases List.mem_cons.1 hcolumn with rfl | hcolumn
        · exact ⟨Nat.le_refl x, hbits⟩
        · have hrest := ih hcolumn
          omega
    | blankPair | blankTriple | blankRun more | endBand =>
      have hrest := ih hcolumn
      simp only [CodeToken.width] at hrest
      omega

theorem pairwise_liveColumns (x : ℕ) (tokens : List CodeToken) :
    (liveColumns x tokens).Pairwise fun a b => a.1 < b.1 := by
  induction tokens generalizing x with
  | nil => exact List.Pairwise.nil
  | cons token rest ih =>
    cases token with
    | column bits =>
      rw [liveColumns]
      split
      · exact ih (x + 1)
      · exact List.pairwise_cons.2 ⟨fun _ h => (le_of_mem_liveColumns h).1, ih (x + 1)⟩
    | blankPair | blankTriple | blankRun more | endBand => exact ih _

/-- The live columns of a band hold what the reader finds in the band. -/
theorem cellsFrom_append (band x : ℕ) {tokens : List CodeToken}
    (hband : .endBand ∉ tokens) :
    ∃ last, ∀ rest, cellsFrom band x (tokens ++ rest) =
      cellsOfColumns band (liveColumns x tokens) ++ cellsFrom band last rest := by
  induction tokens generalizing x with
  | nil => exact ⟨x, fun rest => rfl⟩
  | cons token tokens ih =>
    rw [List.mem_cons, not_or] at hband
    obtain ⟨last, hlast⟩ := ih (x + token.width) hband.2
    refine ⟨last, fun rest => ?_⟩
    cases token with
    | column bits =>
      have hread := hlast rest
      rw [CodeToken.width] at hread
      rw [List.cons_append, cellsFrom, hread, liveColumns]
      split
      · rename_i hbits
        rw [hbits, columnCells_zero, List.nil_append]
      · rw [cellsOfColumns, cellsOfColumns, List.flatMap_cons, List.append_assoc]
    | blankPair | blankTriple | blankRun more => exact hlast rest
    | endBand => exact absurd rfl hband.1

/-- The bits of a column are told by its cells. -/
theorem bits_eq_of_testBit {bits other : Fin 32}
    (h : ∀ i < bandHeight, bits.val.testBit i = other.val.testBit i) : bits = other := by
  apply Fin.ext
  apply Nat.eq_of_testBit_eq
  intro i
  by_cases hi : i < bandHeight
  · exact h i hi
  · have hhigh : ∀ n : Fin 32, n.val.testBit i = false := by
      intro n
      apply Nat.testBit_lt_two_pow
      calc
        n.val < 2 ^ 5 := n.isLt
        _ ≤ 2 ^ i := Nat.pow_le_pow_right (by decide) (Nat.le_of_not_lt hi)
    rw [hhigh, hhigh]

section Columns

variable {band : ℕ} {columns others : List (ℕ × Fin 32)}

/-- In an ascending list of columns, the cells of one column are its bits. -/
theorem mem_cellsOfColumns_iff_testBit (hsorted : columns.Pairwise fun a b => a.1 < b.1)
    {column : ℕ × Fin 32} (hcolumn : column ∈ columns) {h : ℕ} (hh : h < bandHeight) :
    ⟨column.1, bandRow band h⟩ ∈ cellsOfColumns band columns ↔
      column.2.val.testBit h = true := by
  have hplaces : (columns.map Prod.fst).Nodup := by
    rw [List.Nodup, List.pairwise_map]
    exact hsorted.imp Nat.ne_of_lt
  rw [cellsOfColumns, List.mem_flatMap]
  constructor
  · rintro ⟨other, hother, hcell⟩
    obtain ⟨hx, i, hi, hbit, hy⟩ := mem_columnCells_iff.1 hcell
    obtain rfl : other = column :=
      List.inj_on_of_nodup_map hplaces hother hcolumn (Int.ofNat.inj hx).symm
    obtain rfl : h = i := by
      simp only [bandRow] at hy
      omega
    exact hbit
  · intro hbit
    exact ⟨column, hcolumn, mem_columnCells_iff.2 ⟨rfl, h, hh, hbit, rfl⟩⟩

/-- A column with a live cell is in every ascending list with the same cells. -/
theorem columns_subset_of_cells (hsorted : columns.Pairwise fun a b => a.1 < b.1)
    (hsorted' : others.Pairwise fun a b => a.1 < b.1)
    (hlive : ∀ column ∈ columns, column.2 ≠ 0)
    (hcells : ∀ c, c ∈ cellsOfColumns band columns ↔ c ∈ cellsOfColumns band others) :
    columns ⊆ others := by
  intro column hcolumn
  obtain ⟨h, hh, hbit⟩ : ∃ h < bandHeight, column.2.val.testBit h = true := by
    by_contra hnone
    push Not at hnone
    refine hlive column hcolumn (bits_eq_of_testBit fun i hi => ?_)
    simpa using hnone i hi
  have hcell : ⟨column.1, bandRow band h⟩ ∈ cellsOfColumns band columns :=
    (mem_cellsOfColumns_iff_testBit hsorted hcolumn hh).2 hbit
  rw [hcells, cellsOfColumns, List.mem_flatMap] at hcell
  obtain ⟨other, hother, hcell⟩ := hcell
  have hplace : column.1 = other.1 := Int.ofNat.inj (mem_columnCells_iff.1 hcell).1
  have hbits : column.2 = other.2 := by
    apply bits_eq_of_testBit
    intro i hi
    rw [Bool.eq_iff_iff, ← mem_cellsOfColumns_iff_testBit hsorted hcolumn hi, hcells, hplace,
      mem_cellsOfColumns_iff_testBit hsorted' hother hi]
  rwa [Prod.ext hplace hbits]

/-- Two ascending lists of columns with live cells are equal if they have the same
cells. -/
theorem columns_eq_of_cells (hsorted : columns.Pairwise fun a b => a.1 < b.1)
    (hsorted' : others.Pairwise fun a b => a.1 < b.1)
    (hlive : ∀ column ∈ columns, column.2 ≠ 0) (hlive' : ∀ column ∈ others, column.2 ≠ 0)
    (hcells : ∀ c, c ∈ cellsOfColumns band columns ↔ c ∈ cellsOfColumns band others) :
    columns = others := by
  have : Std.Irrefl fun a b : ℕ × Fin 32 => a.1 < b.1 := ⟨fun a => Nat.lt_irrefl a.1⟩
  have : Std.Antisymm fun a b : ℕ × Fin 32 => a.1 < b.1 :=
    ⟨fun _ _ hab hba => absurd hab (Nat.lt_asymm hba)⟩
  refine hsorted.eq_of_mem_iff hsorted' fun column => ⟨fun h => ?_, fun h => ?_⟩
  · exact columns_subset_of_cells hsorted hsorted' hlive hcells h
  · exact columns_subset_of_cells hsorted' hsorted hlive' (fun c => (hcells c).symm) h

end Columns

/-! ## Bands -/

/-- The tokens of a code, band by band. -/
theorem exists_bands (tokens : List CodeToken) :
    ∃ band bands, tokens = [.endBand].intercalate (band :: bands) ∧
      ∀ part ∈ band :: bands, CodeToken.endBand ∉ part := by
  induction tokens with
  | nil => exact ⟨[], [], rfl, by simp⟩
  | cons token tokens ih =>
    obtain ⟨band, bands, rfl, hparts⟩ := ih
    by_cases hend : token = .endBand
    · refine ⟨[], band :: bands, ?_, List.forall_mem_cons.2 ⟨List.not_mem_nil, hparts⟩⟩
      rw [hend, List.intercalate_cons_cons]
      rfl
    · rw [List.forall_mem_cons] at hparts
      refine ⟨token :: band, bands, ?_, List.forall_mem_cons.2 ⟨?_, hparts.2⟩⟩
      · cases bands with
        | nil => rfl
        | cons next bands =>
          rw [List.intercalate_cons_cons, List.intercalate_cons_cons]
          rfl
      · rw [List.mem_cons, not_or]
        exact ⟨Ne.symm hend, hparts.1⟩

theorem size_intercalate (parts : List (List CodeToken)) :
    size ([.endBand].intercalate parts) = (parts.map size).sum + (parts.length - 1) := by
  induction parts with
  | nil => rfl
  | cons part parts ih =>
    cases parts with
    | nil => simp
    | cons next parts =>
      rw [List.intercalate_cons_cons, size_append, size_append, ih]
      simp only [size_cons, size_nil, List.map_cons, List.sum_cons, List.length_cons,
        CodeToken.write, List.length_nil]
      omega

private theorem exists_part_cons {α : Type} {P : ℕ → α → Prop} {first : α} {rest : List α} :
    (∃ i part, (first :: rest)[i]? = some part ∧ P i part) ↔
      P 0 first ∨ ∃ i part, rest[i]? = some part ∧ P (i + 1) part := by
  constructor
  · rintro ⟨i, part, hpart, h⟩
    cases i with
    | zero =>
      cases hpart
      exact Or.inl h
    | succ i => exact Or.inr ⟨i, part, hpart, h⟩
  · rintro (h | ⟨i, part, hpart, h⟩)
    · exact ⟨0, first, rfl, h⟩
    · exact ⟨i + 1, part, hpart, h⟩

/-- The reader finds in each band the live columns of its tokens. -/
theorem mem_cellsFrom_intercalate_iff {first : ℕ} {band : List CodeToken}
    {bands : List (List CodeToken)}
    (hparts : ∀ part ∈ band :: bands, CodeToken.endBand ∉ part) {c : Coord} :
    c ∈ cellsFrom first 0 ([.endBand].intercalate (band :: bands)) ↔
      ∃ i part, (band :: bands)[i]? = some part ∧
        c ∈ cellsOfColumns (first + i) (liveColumns 0 part) := by
  induction bands generalizing first band with
  | nil =>
    obtain ⟨last, hlast⟩ := cellsFrom_append first 0 (hparts band List.mem_cons_self)
    have hread := hlast []
    rw [List.append_nil] at hread
    rw [List.intercalate_singleton, hread, exists_part_cons]
    simp [cellsFrom]
  | cons next bands ih =>
    obtain ⟨hband, hbands⟩ := List.forall_mem_cons.1 hparts
    obtain ⟨last, hlast⟩ := cellsFrom_append first 0 hband
    have hnext : ∀ i, first + 1 + i = first + (i + 1) := fun i => by omega
    rw [List.intercalate_cons_cons, List.append_assoc, List.singleton_append, hlast, cellsFrom,
      List.mem_append, ih hbands]
    simp only [hnext]
    exact (exists_part_cons (P := fun i part =>
      c ∈ cellsOfColumns (first + i) (liveColumns 0 part))).symm

theorem div_bandHeight_of_mem_cellsOfColumns {band : ℕ} {columns : List (ℕ × Fin 32)}
    {c : Coord} (hc : c ∈ cellsOfColumns band columns) : c.y / bandHeight = band := by
  rw [cellsOfColumns, List.mem_flatMap] at hc
  obtain ⟨column, -, hc⟩ := hc
  obtain ⟨-, h, hh, -, hy⟩ := mem_columnCells_iff.1 hc
  have hnonneg : 0 ≤ c.y := by
    simp only [hy, bandRow, bandHeight]
    omega
  exact (exists_bandRow_iff hnonneg band).2 ⟨h, hh, hy⟩

theorem sum_map_range_le {parts : List (List CodeToken)} {f : ℕ → ℕ} {n : ℕ}
    (hn : n ≤ parts.length) (hf : ∀ i part, parts[i]? = some part → f i ≤ size part) :
    ((List.range n).map f).sum ≤ (parts.map size).sum := by
  induction parts generalizing f n with
  | nil => simp_all
  | cons part parts ih =>
    cases n with
    | zero => simp
    | succ n =>
      have hrest := ih (Nat.le_of_succ_le_succ hn) fun i part hpart => hf (i + 1) part hpart
      have hfirst := hf 0 part rfl
      rw [List.range_succ_eq_map, List.map_cons, List.map_map, List.sum_cons, List.map_cons,
        List.sum_cons]
      exact Nat.add_le_add hfirst hrest

section Pattern

variable {coords : List Coord}

theorem ne_zero_of_mem_bandColumns (hnonneg : ∀ c ∈ coords, 0 ≤ c.x ∧ 0 ≤ c.y) {band : ℕ}
    {column : ℕ × Fin 32} (hcolumn : column ∈ bandColumns band (bandCells band coords)) :
    column.2 ≠ 0 := by
  rw [bandColumns, List.mem_map] at hcolumn
  obtain ⟨x, hx, rfl⟩ := hcolumn
  obtain ⟨c, hc, rfl⟩ := List.mem_map.1 (List.mem_eraseDups.1 hx)
  obtain ⟨hcoords, hband⟩ := List.mem_filter.1 hc
  obtain ⟨h, hh, hy⟩ :=
    (exists_bandRow_iff (hnonneg c hcoords).2 band).1 (of_decide_eq_true hband)
  have hbit := testBit_columnBits band (bandCells band coords) c.x hh
  have hcell : (⟨c.x, bandRow band h⟩ : Coord) ∈ bandCells band coords := by
    rwa [← hy]
  rw [List.contains_iff_mem.2 hcell] at hbit
  intro hzero
  simp only at hzero
  rw [hzero] at hbit
  simp at hbit

/-- A pattern is not written in more characters than any tokens that describe it. -/
theorem size_patternTokens_le (hsorted : coords.Pairwise Coord.Before)
    (hnonneg : ∀ c ∈ coords, 0 ≤ c.x ∧ 0 ≤ c.y) {tokens : List CodeToken}
    (hcells : ∀ c, c ∈ cellsFrom 0 0 tokens ↔ c ∈ coords) {bands : ℕ}
    (hbands : ∃ c ∈ coords, c.y / bandHeight + 1 = bands) :
    size (patternTokens coords bands) ≤ size tokens := by
  obtain ⟨band, parts, rfl, hparts⟩ := exists_bands tokens
  simp only [mem_cellsFrom_intercalate_iff hparts, Nat.zero_add] at hcells
  have hcount : bands ≤ (band :: parts).length := by
    obtain ⟨c, hc, hlast⟩ := hbands
    obtain ⟨i, part, hpart, hi⟩ := (hcells c).2 hc
    rw [div_bandHeight_of_mem_cellsOfColumns hi] at hlast
    have hplace : i < (band :: parts).length := (List.getElem?_eq_some_iff.1 hpart).1
    omega
  have hread : ∀ i part, (band :: parts)[i]? = some part → ∀ c,
      c ∈ cellsOfColumns i (bandColumns i (bandCells i coords)) ↔
        c ∈ cellsOfColumns i (liveColumns 0 part) := by
    intro i part hpart c
    rw [mem_cellsOfColumns_iff hnonneg, ← hcells]
    constructor
    · rintro ⟨⟨j, other, hother, hc⟩, hband⟩
      rw [div_bandHeight_of_mem_cellsOfColumns hc, Int.natCast_inj] at hband
      subst hband
      rw [hpart, Option.some.injEq] at hother
      rwa [hother]
    · intro hc
      exact ⟨⟨i, part, hpart, hc⟩, div_bandHeight_of_mem_cellsOfColumns hc⟩
  have hsame : ∀ i part, (band :: parts)[i]? = some part →
      bandColumns i (bandCells i coords) = liveColumns 0 part := fun i part hpart =>
    columns_eq_of_cells (pairwise_bandColumns hsorted hnonneg i) (pairwise_liveColumns 0 part)
      (fun _ => ne_zero_of_mem_bandColumns hnonneg) (fun _ h => (le_of_mem_liveColumns h).2)
      (hread i part hpart)
  have hband : ∀ i part, (band :: parts)[i]? = some part →
      size (bandTokens coords i) ≤ size part := by
    intro i part hpart
    have hle := size_columnTokens_le (Nat.le_refl 0) part
    have hzero : size (blankTokens (0 - 0)) = 0 := rfl
    rwa [hzero, Nat.zero_add, ← hsame i part hpart, ← bandTokens] at hle
  rw [patternTokens, size_intercalate, size_intercalate, List.map_map, List.length_map,
    List.length_range]
  have hsum := sum_map_range_le hcount hband
  simp only [Function.comp_def]
  omega

end Pattern

/-! ## Codes of patterns at the origin -/

theorem length_text_ofTokens_le (tokens : List CodeToken) :
    (ofTokens tokens).text.length ≤ max 1 (size tokens) := by
  rw [ofTokens]
  split
  · exact Nat.le_max_left 1 _
  · exact Nat.le_max_right 1 _

open Grid

variable {g h : Grid} {code : Apgcode}

/-- The bands that are written end with one that has a live cell. -/
theorem exists_last_band {box : BoundingBox} (hbox : h.boundingBox = .ok box)
    (hy : box.y = 0) (horigin : h.AtOrigin) :
    ∃ c ∈ h.coords, c.y / bandHeight + 1 = bandCount box.height := by
  obtain ⟨c, hc, hbottom⟩ := (BoundingBox.isTight_of_ofCoords hbox).exists_bottom
  have hnonneg := (horigin.nonneg c hc).2
  refine ⟨c, hc, ?_⟩
  simp only [BoundingBox.maxY] at hbottom
  simp only [bandCount, bandHeight]
  omega

/-- The code of a pattern at the origin is not longer than any tokens that describe the
pattern. -/
theorem length_text_le_size (hnormalized : g.normalized = .ok h)
    (hcode : atOrigin h = .ok code) {tokens : List CodeToken} (hsize : 1 ≤ size tokens)
    (hcells : ∀ c, c ∈ cellsFrom 0 0 tokens ↔ c ∈ h.coords) :
    code.text.length ≤ size tokens := by
  have horigin := atOrigin_of_normalized hnormalized
  rw [atOrigin] at hcode
  split at hcode
  · cases hcode
    exact hsize
  · cases hbox : h.boundingBox with
    | error e =>
      rw [hbox] at hcode
      cases hcode
    | ok box =>
      rw [hbox] at hcode
      cases hcode
      have hlast := exists_last_band hbox (corner_of_normalized hnormalized hbox).2 horigin
      calc
        _ ≤ max 1 (size (patternTokens h.coords (bandCount box.height))) :=
          length_text_ofTokens_le _
        _ ≤ size tokens :=
          Nat.max_le.2 ⟨hsize,
            size_patternTokens_le h.pairwise_coords horigin.nonneg hcells hlast⟩

/-- A text that describes a pattern is the text of a code that does. -/
theorem exists_code_of_decode {text : String} (hdecode : decode text = .ok g) :
    ∃ code : Apgcode, code.toGrid = g ∧ code.text = text.toList := by
  rcases parse_cases text with ⟨-, code, hparse, htext⟩ | ⟨-, fault, hparse⟩
  · rw [decode, hparse] at hdecode
    cases hdecode
    exact ⟨code, rfl, htext⟩
  · rw [decode, hparse] at hdecode
    cases hdecode

theorem one_le_size (code : Apgcode) : 1 ≤ size code.tokens := by
  cases htokens : code.tokens with
  | nil => exact absurd htokens code.nonempty
  | cons token rest =>
    rw [size_cons]
    cases token with
    | column | blankPair | blankTriple | blankRun | endBand =>
      rw [CodeToken.write, List.length_cons]
      omega

/-- The patterns of texts of moderate length can be brought to the origin. -/
theorem narrow_toGrid (code : Apgcode)
    (hlength : 39 * (code.text.length : ℤ) ≤ Coord.greatest) : code.toGrid.Narrow := by
  intro c hc d hd
  have hcbound := bounds_of_mem_cellsFrom (mem_coords_ofCoords_iff.1 hc)
  have hdbound := bounds_of_mem_cellsFrom (mem_coords_ofCoords_iff.1 hd)
  rw [← text] at hcbound hdbound
  omega

/-- A pattern that is empty or has its first cells in column 0 and in row 0 is brought
to itself. -/
theorem normalized_eq_self (hplace : g = .empty ∨ IsLeast g.columns 0 ∧ IsLeast g.rows 0)
    (hnormalized : g.normalized = .ok h) : h = g := by
  have horigin : g.AtOrigin := by
    rcases hplace with rfl | ⟨hcolumns, hrows⟩
    · exact ⟨fun c hc => absurd hc List.not_mem_nil, fun hne => absurd rfl hne,
        fun hne => absurd rfl hne⟩
    · exact ⟨fun c hc => ⟨hcolumns.2 ⟨c, hc, rfl⟩, hrows.2 ⟨c, hc, rfl⟩⟩,
        fun _ => hcolumns.1, fun _ => hrows.1⟩
  exact (isImage_of_normalized hnormalized).eq_of_atOrigin horigin
    (atOrigin_of_normalized hnormalized)

/-- **No text is shorter than the code that is written for its pattern.**  If a text
describes a pattern that is empty or lies at the origin, the code of that pattern
describes it too, and no text that does has fewer characters.  A pattern that exceeds the
span has no code; it takes a very long text to describe one. -/
theorem ofGrid_is_shortest {text : String} (hdecode : decode text = .ok g)
    (hplace : g = .empty ∨ IsLeast g.columns 0 ∧ IsLeast g.rows 0) :
    (∃ code, ofGrid g = .ok code ∧ decode (String.ofList code.text) = .ok g ∧
      ∀ other : String, decode other = .ok g → code.text.length ≤ other.length) ∨
    (ofGrid g = .error .coordinateOverflow ∧ Coord.greatest < 39 * text.length) := by
  obtain ⟨source, rfl, hsource⟩ := exists_code_of_decode hdecode
  by_cases hnarrow : source.toGrid.Narrow
  · left
    obtain ⟨h, hnormalized⟩ := exists_normalized hnarrow
    obtain rfl := normalized_eq_self hplace hnormalized
    obtain ⟨code, hcode⟩ := exists_atOrigin hnormalized
    refine ⟨code, ?_, ?_, fun other hother => ?_⟩
    · rw [ofGrid_eq_atOrigin hnormalized, hcode]
    · rw [decode_text, toGrid_of_atOrigin hnormalized hcode, toGrid, presence]
      exact congrArg _ (ofCoords_congr fun _ => mem_coords_ofCoords_iff)
    · obtain ⟨described, hgrid, htext⟩ := exists_code_of_decode hother
      have hcells : ∀ c, c ∈ cellsFrom 0 0 described.tokens ↔ c ∈ source.toGrid.coords := by
        intro c
        rw [← hgrid, toGrid, mem_coords_ofCoords_iff]
      calc
        code.text.length ≤ size described.tokens :=
          length_text_le_size hnormalized hcode described.one_le_size hcells
        _ = other.length := (congrArg List.length htext).trans String.length_toList
  · right
    refine ⟨(failsOnExcess_ofGrid _ _).2 ⟨exceedsSpan_iff.2 hnarrow, rfl⟩, ?_⟩
    have hlength : text.length = source.text.length := by
      rw [hsource, String.length_toList]
    rw [hlength]
    exact Int.not_le.1 (mt source.narrow_toGrid hnarrow)

/-- Two cells, seven columns apart. -/
def spacedPair : Grid :=
  .ofCoords [⟨0, 0⟩, ⟨7, 0⟩]

/-- Six blank columns are said as one, two and three, with an empty band at the end, or
with a single token. -/
theorem spacedPair_is_shortened :
    decode "10wx1z" = .ok spacedPair ∧ (ofGrid spacedPair).map text = .ok "1y21".toList ∧
      ∀ other : String, decode other = .ok spacedPair → 4 ≤ other.length := by
  have hdecode : decode "10wx1z" = .ok spacedPair := by decide +kernel
  have hcode : ofGrid spacedPair =
      .ok (ofTokens [.column 1, .blankRun 2, .column 1]) := by decide +kernel
  have horigin : spacedPair.AtOrigin :=
    atOrigin_of_normalized (show spacedPair.normalized = .ok spacedPair by decide +kernel)
  have hne : spacedPair.coords ≠ [] := by decide +kernel
  have hplace := And.intro (isLeast_columns horigin hne) (isLeast_rows horigin hne)
  refine ⟨hdecode, by rw [hcode]; rfl, fun other hother => ?_⟩
  rcases ofGrid_is_shortest hdecode (Or.inr hplace) with ⟨code, hshort, -, hleast⟩ | ⟨herror, -⟩
  · rw [hcode, Except.ok.injEq] at hshort
    subst hshort
    exact hleast other hother
  · rw [hcode] at herror
    cases herror

end Apgcode

end Cellular
