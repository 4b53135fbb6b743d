import Mathlib.Algebra.Group.Nat.Defs
import Mathlib.Data.Finset.Prod
import Mathlib.Data.Int.Interval
import Mathlib.Order.Bounds.Defs
import Cellular.Proofs.BoundingBox

/-!
# Bounding boxes are exact

A list of points has a box unless it is empty or its points lie too far apart.  The
edges of the box are the outermost columns and rows of the points, whatever their
order and however often each is listed, and no step of the arithmetic leaves the span,
not even at its ends.  A box that holds the points holds their bounding box, which has
room for all of them.
-/

namespace Cellular

namespace Coord

/-- A number, if it is a coordinate of the span. -/
def inSpan? (n : ℤ) : Option ℤ :=
  if least ≤ n ∧ n ≤ greatest then some n else none

theorem inSpan?_of_mem {n : ℤ} (hleast : least ≤ n) (hgreatest : n ≤ greatest) :
    inSpan? n = some n :=
  if_pos ⟨hleast, hgreatest⟩

theorem inSpan?_of_lt {n : ℤ} (h : greatest < n) : inSpan? n = none :=
  if_neg fun hspan => absurd hspan.2 (not_le_of_gt h)

end Coord

namespace BoundingBox

variable {box other : BoundingBox} {coords others : List Coord}

/-! ## Arithmetic within the span -/

/-- The number of cells from `first` to `last`, if neither the difference nor its
successor leaves the span. -/
def extent? (first last : ℤ) : Option ℤ :=
  (Coord.inSpan? (last - first)).bind fun gap => Coord.inSpan? (gap + 1)

/-- The last of so many cells from `first` on, if neither the predecessor of the number
nor the sum leaves the span. -/
def last? (first extent : ℤ) : Option ℤ :=
  (Coord.inSpan? (extent - 1)).bind fun gap => Coord.inSpan? (first + gap)

/-- The bounding box of a list of coordinates, found by arithmetic within the span. -/
def ofCoordsInSpan : List Coord → Except GridError BoundingBox
  | [] => .error .emptyPattern
  | c :: rest =>
    let left := leastOf c.x (rest.map Coord.x)
    let top := leastOf c.y (rest.map Coord.y)
    match extent? left (greatestOf c.x (rest.map Coord.x)),
      extent? top (greatestOf c.y (rest.map Coord.y)) with
    | some width, some height => .ok ⟨left, top, width, height⟩
    | _, _ => .error .coordinateOverflow

/-- The number of cells of a box, multiplied in words of 128 bits. -/
def areaWord (box : BoundingBox) : BitVec 128 :=
  BitVec.ofNat 128 box.width.natAbs * BitVec.ofNat 128 box.height.natAbs

/-- Both steps stay in the span exactly if the result does. -/
theorem extent?_eq {first last : ℤ} (h : first ≤ last) :
    extent? first last = (extent first last).toOption := by
  have hnonneg : Coord.least ≤ last - first := by
    rw [Coord.least]
    omega
  rw [extent]
  split
  · rename_i hle
    rw [extent?, Coord.inSpan?_of_mem hnonneg (by omega), Option.bind_some,
      Coord.inSpan?_of_mem (by omega) hle]
    rfl
  · rename_i hgt
    rcases lt_or_ge Coord.greatest (last - first) with hlt | hge
    · rw [extent?, Coord.inSpan?_of_lt hlt]
      rfl
    · rw [extent?, Coord.inSpan?_of_mem hnonneg hge, Option.bind_some,
        Coord.inSpan?_of_lt (by omega)]
      rfl

theorem last?_eq {first extent : ℤ} (hpos : 1 ≤ extent) (hextent : extent ≤ Coord.greatest)
    (hfirst : Coord.least ≤ first) (hlast : first + (extent - 1) ≤ Coord.greatest) :
    last? first extent = some (first + (extent - 1)) := by
  have hleast : Coord.least ≤ extent - 1 := by
    rw [Coord.least]
    omega
  rw [last?, Coord.inSpan?_of_mem hleast (by omega), Option.bind_some,
    Coord.inSpan?_of_mem (by omega) hlast]

theorem leastOf_le_greatestOf (first : ℤ) (rest : List ℤ) :
    leastOf first rest ≤ greatestOf first rest :=
  Int.le_trans (leastOf_le List.mem_cons_self) (le_greatestOf List.mem_cons_self)

theorem eq_overflow_of_extent {first last : ℤ} {e : GridError}
    (h : extent first last = .error e) : e = .coordinateOverflow := by
  rw [extent] at h
  split at h <;> cases h
  rfl

/-- Kept within the span, the arithmetic finds the same box, or the same fault. -/
theorem ofCoordsInSpan_eq (coords : List Coord) :
    ofCoordsInSpan coords = ofCoords coords := by
  cases coords with
  | nil => rfl
  | cons c rest =>
    simp only [ofCoordsInSpan, ofCoords, extent?_eq (leastOf_le_greatestOf _ _)]
    cases hwidth : extent (leastOf c.x (rest.map Coord.x)) (greatestOf c.x (rest.map Coord.x)) with
    | error e =>
      rw [eq_overflow_of_extent hwidth]
      rfl
    | ok width =>
      cases hheight : extent (leastOf c.y (rest.map Coord.y))
          (greatestOf c.y (rest.map Coord.y)) with
      | error e =>
        rw [eq_overflow_of_extent hheight]
        rfl
      | ok height => rfl

/-! ## The edges of a box -/

/-- The columns of some points. -/
def columns (coords : List Coord) : Set ℤ :=
  {x | ∃ c ∈ coords, c.x = x}

/-- The rows of some points. -/
def rows (coords : List Coord) : Set ℤ :=
  {y | ∃ c ∈ coords, c.y = y}

/-- From the least to the greatest column of some points, or from the least to the
greatest row, there are more than a box may have. -/
def ExceedSpan (coords : List Coord) : Prop :=
  ∃ left right top bottom, IsLeast (columns coords) left ∧ IsGreatest (columns coords) right ∧
    IsLeast (rows coords) top ∧ IsGreatest (rows coords) bottom ∧
    (Coord.greatest < right - left + 1 ∨ Coord.greatest < bottom - top + 1)

/-- What is asked of the box of some points. -/
structure IsExact (box : BoundingBox) (coords : List Coord) : Prop where
  left : IsLeast (columns coords) box.x
  right : IsGreatest (columns coords) box.maxX
  top : IsLeast (rows coords) box.y
  bottom : IsGreatest (rows coords) box.maxY
  /-- The last column and the last row are found without leaving the span. -/
  last_columns : last? box.x box.width = some box.maxX
  last_rows : last? box.y box.height = some box.maxY
  contains_iff : ∀ c, box.contains c = true ↔
    (box.x ≤ c.x ∧ c.x ≤ box.maxX) ∧ box.y ≤ c.y ∧ c.y ≤ box.maxY
  /-- It lies in every box that holds the points. -/
  inside : ∀ other : BoundingBox, (∀ c ∈ coords, other.contains c = true) →
    ∀ c, box.contains c = true → other.contains c = true
  /-- It has room for the points, and its area fits a word. -/
  length_dedup_le : coords.dedup.length ≤ box.area
  area_lt : box.area < 2 ^ 128
  area_word : box.areaWord.toNat = box.area

theorem contains_iff {c : Coord} : box.contains c = true ↔
    (box.x ≤ c.x ∧ c.x ≤ box.maxX) ∧ box.y ≤ c.y ∧ c.y ≤ box.maxY := by
  simp only [contains, Bool.and_eq_true, decide_eq_true_eq, and_assoc]

namespace IsTight

theorem isLeast_columns (h : box.IsTight coords) : IsLeast (columns coords) box.x := by
  refine ⟨h.exists_left, ?_⟩
  rintro _ ⟨c, hc, rfl⟩
  exact h.left_le c hc

theorem isGreatest_columns (h : box.IsTight coords) : IsGreatest (columns coords) box.maxX := by
  refine ⟨h.exists_right, ?_⟩
  rintro _ ⟨c, hc, rfl⟩
  exact h.le_right c hc

theorem isLeast_rows (h : box.IsTight coords) : IsLeast (rows coords) box.y := by
  refine ⟨h.exists_top, ?_⟩
  rintro _ ⟨c, hc, rfl⟩
  exact h.top_le c hc

theorem isGreatest_rows (h : box.IsTight coords) : IsGreatest (rows coords) box.maxY := by
  refine ⟨h.exists_bottom, ?_⟩
  rintro _ ⟨c, hc, rfl⟩
  exact h.le_bottom c hc

/-- The points alone, without their order and their number, decide on the box. -/
theorem eq_of_mem_iff (h : box.IsTight coords) (hother : other.IsTight others)
    (hmem : ∀ c, c ∈ others ↔ c ∈ coords) : other = box := by
  have hcolumns : columns others = columns coords := by
    simp only [columns, hmem]
  have hrows : rows others = rows coords := by
    simp only [rows, hmem]
  have hx : other.x = box.x := (hcolumns ▸ hother.isLeast_columns).unique h.isLeast_columns
  have hy : other.y = box.y := (hrows ▸ hother.isLeast_rows).unique h.isLeast_rows
  have hmaxX : other.maxX = box.maxX :=
    (hcolumns ▸ hother.isGreatest_columns).unique h.isGreatest_columns
  have hmaxY : other.maxY = box.maxY :=
    (hrows ▸ hother.isGreatest_rows).unique h.isGreatest_rows
  rw [maxX, maxX] at hmaxX
  rw [maxY, maxY] at hmaxY
  have hwidth : other.width = box.width := by omega
  have hheight : other.height = box.height := by omega
  rcases box with ⟨x, y, width, height⟩
  rcases other with ⟨otherX, otherY, otherWidth, otherHeight⟩
  cases hx
  cases hy
  cases hwidth
  cases hheight
  rfl

theorem contains_of_contains (h : box.IsTight coords)
    (hother : ∀ c ∈ coords, other.contains c = true) {c : Coord} (hc : box.contains c = true) :
    other.contains c = true := by
  obtain ⟨left, hleft, hx⟩ := h.exists_left
  obtain ⟨right, hright, hmaxX⟩ := h.exists_right
  obtain ⟨top, htop, hy⟩ := h.exists_top
  obtain ⟨bottom, hbottom, hmaxY⟩ := h.exists_bottom
  have hleftIn := contains_iff.1 (hother left hleft)
  have hrightIn := contains_iff.1 (hother right hright)
  have htopIn := contains_iff.1 (hother top htop)
  have hbottomIn := contains_iff.1 (hother bottom hbottom)
  rw [contains_iff] at hc ⊢
  omega

theorem one_le_width (h : box.IsTight coords) : 1 ≤ box.width := by
  obtain ⟨c, hc, hleft⟩ := h.exists_left
  have hright := h.le_right c hc
  rw [maxX] at hright
  omega

theorem one_le_height (h : box.IsTight coords) : 1 ≤ box.height := by
  obtain ⟨c, hc, htop⟩ := h.exists_top
  have hbottom := h.le_bottom c hc
  rw [maxY] at hbottom
  omega

/-- Different points take up different cells of the box. -/
theorem length_dedup_le_area (h : box.IsTight coords) : coords.dedup.length ≤ box.area := by
  have hwidth := h.one_le_width
  have hheight := h.one_le_height
  have hcells : ∀ c ∈ coords.toFinset,
      (c.x, c.y) ∈ Finset.Icc box.x box.maxX ×ˢ Finset.Icc box.y box.maxY := by
    intro c hc
    rw [List.mem_toFinset] at hc
    simp only [Finset.mem_product, Finset.mem_Icc]
    exact ⟨⟨h.left_le c hc, h.le_right c hc⟩, h.top_le c hc, h.le_bottom c hc⟩
  have hinj : Set.InjOn (fun c : Coord => (c.x, c.y)) coords.toFinset := by
    intro c _ d _ heq
    exact Coord.ext_iff.2 (Prod.mk.inj heq)
  calc
    coords.dedup.length = coords.toFinset.card := (List.card_toFinset coords).symm
    _ ≤ (Finset.Icc box.x box.maxX ×ˢ Finset.Icc box.y box.maxY).card :=
      Finset.card_le_card_of_injOn _ hcells hinj
    _ = (box.maxX + 1 - box.x).toNat * (box.maxY + 1 - box.y).toNat := by
      rw [Finset.card_product, Int.card_Icc, Int.card_Icc]
    _ = box.area := by
      rw [area, maxX, maxY]
      congr 1 <;> omega

end IsTight

theorem area_lt (hwidth : 1 ≤ box.width ∧ box.width ≤ Coord.greatest)
    (hheight : 1 ≤ box.height ∧ box.height ≤ Coord.greatest) : box.area < 2 ^ 126 := by
  rw [Coord.greatest] at hwidth hheight
  calc
    box.area ≤ (2 ^ 63 - 1) * (2 ^ 63 - 1) := by
      rw [area]
      exact Nat.mul_le_mul (by omega) (by omega)
    _ < 2 ^ 126 := by decide

theorem toNat_areaWord (h : box.area < 2 ^ 128) : box.areaWord.toNat = box.area := by
  rw [areaWord, BitVec.toNat_mul, BitVec.toNat_ofNat, BitVec.toNat_ofNat, ← Nat.mul_mod]
  exact Nat.mod_eq_of_lt h

/-! ## The box of a list -/

theorem exceedSpan_iff : ExceedSpan coords ↔
    ¬ ∀ d ∈ coords, ∀ e ∈ coords, d.x - e.x < Coord.greatest ∧ d.y - e.y < Coord.greatest := by
  constructor
  · rintro ⟨left, right, top, bottom, ⟨⟨a, ha, rfl⟩, -⟩, ⟨⟨b, hb, rfl⟩, -⟩,
      ⟨⟨c, hc, rfl⟩, -⟩, ⟨⟨d, hd, rfl⟩, -⟩, hexceeds⟩ hnear
    have hwidth := (hnear b hb a ha).1
    have hheight := (hnear d hd c hc).2
    omega
  · intro hfar
    cases coords with
    | nil => exact absurd (List.forall_mem_nil _) hfar
    | cons c rest =>
      have htight := isTight_around c rest
      have hlarge := mt (around_le_greatest_iff c rest).1 hfar
      refine ⟨_, _, _, _, htight.isLeast_columns, htight.isGreatest_columns,
        htight.isLeast_rows, htight.isGreatest_rows, ?_⟩
      rw [maxX, maxY]
      omega

/-- Some points have a box exactly if there is one among them and they do not lie too
far apart. -/
theorem exists_ofCoords_eq_ok (hne : coords ≠ []) (hspan : ¬ ExceedSpan coords) :
    ∃ box, ofCoords coords = .ok box := by
  obtain ⟨c, rest, rfl⟩ := List.exists_cons_of_ne_nil hne
  rw [exceedSpan_iff, not_not, ← around_le_greatest_iff] at hspan
  rw [ofCoords_eq, if_pos hspan]
  exact ⟨_, rfl⟩

theorem ofCoords_eq_overflow_iff :
    ofCoords coords = .error .coordinateOverflow ↔ ExceedSpan coords := by
  cases coords with
  | nil =>
    constructor
    · intro h
      cases h
    · rintro ⟨_, _, _, _, ⟨⟨c, hc, -⟩, -⟩, -⟩
      cases hc
  | cons c rest =>
    rw [exceedSpan_iff, ← around_le_greatest_iff, ofCoords_eq]
    split
    · rename_i hle
      simp [hle]
    · rename_i hlarge
      simp [hlarge]

theorem ofCoords_eq_empty_iff : ofCoords coords = .error .emptyPattern ↔ coords = [] := by
  cases coords with
  | nil => exact iff_of_true rfl rfl
  | cons c rest =>
    rw [ofCoords_eq]
    split <;> simp

theorem ofCoords_eq_of_mem_iff (hmem : ∀ c, c ∈ others ↔ c ∈ coords) :
    ofCoords others = ofCoords coords := by
  cases coords with
  | nil =>
    have hnil : others = [] := List.eq_nil_iff_forall_not_mem.2 fun c hc =>
      List.not_mem_nil ((hmem c).1 hc)
    rw [hnil]
  | cons c rest =>
    obtain ⟨d, others, rfl⟩ :=
      List.exists_cons_of_ne_nil (List.ne_nil_of_mem ((hmem c).2 List.mem_cons_self))
    have hbox : around d others = around c rest :=
      (isTight_around c rest).eq_of_mem_iff (isTight_around d others) hmem
    rw [ofCoords_eq, ofCoords_eq, hbox]

theorem extents_le_of_ofCoords (h : ofCoords coords = .ok box) :
    box.width ≤ Coord.greatest ∧ box.height ≤ Coord.greatest := by
  cases coords with
  | nil => cases h
  | cons c rest =>
    rw [ofCoords_eq] at h
    split at h
    · rename_i hle
      cases h
      exact hle
    · cases h

theorem isExact_of_ofCoords (hfits : ∀ c ∈ coords, c.Fits) (h : ofCoords coords = .ok box) :
    box.IsExact coords := by
  have htight := isTight_of_ofCoords h
  have hextents := extents_le_of_ofCoords h
  have hwidth := htight.one_le_width
  have hheight := htight.one_le_height
  have harea : box.area < 2 ^ 128 :=
    Nat.lt_trans (area_lt ⟨hwidth, hextents.1⟩ ⟨hheight, hextents.2⟩) (by decide)
  -- The edges are coordinates of points, so they are in the span.
  obtain ⟨left, hleft, hx⟩ := htight.exists_left
  obtain ⟨right, hright, hmaxX⟩ := htight.exists_right
  obtain ⟨top, htop, hy⟩ := htight.exists_top
  obtain ⟨bottom, hbottom, hmaxY⟩ := htight.exists_bottom
  exact {
    left := htight.isLeast_columns
    right := htight.isGreatest_columns
    top := htight.isLeast_rows
    bottom := htight.isGreatest_rows
    last_columns := last?_eq hwidth hextents.1 (hx ▸ (hfits left hleft).1.1)
      (hmaxX.symm.trans_le (hfits right hright).1.2)
    last_rows := last?_eq hheight hextents.2 (hy ▸ (hfits top htop).2.1)
      (hmaxY.symm.trans_le (hfits bottom hbottom).2.2)
    contains_iff := fun _ => contains_iff
    inside := fun _ hother _ hc => htight.contains_of_contains hother hc
    length_dedup_le := htight.length_dedup_le_area
    area_lt := harea
    area_word := toNat_areaWord harea }

/-- **The box of some points is exact.**  Among points of the span, it is missing exactly
for the empty list and for points that lie too far apart, with the fault that names the
reason.  Otherwise its edges are the outermost columns and rows of the points, found
without leaving the span; it holds the points between its edges and no others, lies in
every box that holds the points, and has room for the different ones among them, with
an area that fits a word.  Neither the order of the points nor their repetition matters,
and arithmetic that stays in the span finds the same box or the same fault. -/
theorem ofCoords_is_exact (hfits : ∀ c ∈ coords, c.Fits) :
    (ofCoords coords = .error .emptyPattern ↔ coords = []) ∧
    (ofCoords coords = .error .coordinateOverflow ↔ ExceedSpan coords) ∧
    (coords ≠ [] → ¬ ExceedSpan coords → ∃ box, ofCoords coords = .ok box) ∧
    (∀ box, ofCoords coords = .ok box → box.IsExact coords) ∧
    (∀ others : List Coord, (∀ c, c ∈ others ↔ c ∈ coords) →
      ofCoords others = ofCoords coords) ∧
    ofCoordsInSpan coords = ofCoords coords :=
  ⟨ofCoords_eq_empty_iff, ofCoords_eq_overflow_iff, exists_ofCoords_eq_ok,
    fun _ => isExact_of_ofCoords hfits, fun _ => ofCoords_eq_of_mem_iff,
    ofCoordsInSpan_eq coords⟩

/-- The widest box there is begins at the first column of the span.  One column more is
too wide. -/
theorem widestBox_is_exact :
    (∀ c ∈ [⟨Coord.least, 5⟩, ⟨-2, 0⟩, ⟨-2, 0⟩], Coord.Fits c) ∧
      (⟨Coord.least, 0, Coord.greatest, 6⟩ : BoundingBox).IsExact
        [⟨Coord.least, 5⟩, ⟨-2, 0⟩, ⟨-2, 0⟩] ∧
      ofCoords [⟨-2, 0⟩, ⟨Coord.least, 5⟩] =
        .ok ⟨Coord.least, 0, Coord.greatest, 6⟩ ∧
      ExceedSpan [⟨Coord.least, 5⟩, ⟨-1, 0⟩] := by
  have hfits : ∀ c ∈ [⟨Coord.least, 5⟩, ⟨-2, 0⟩, ⟨-2, 0⟩], Coord.Fits c := by decide
  have hwide : ∀ c ∈ [⟨Coord.least, 5⟩, ⟨-1, 0⟩], Coord.Fits c := by decide
  obtain ⟨-, -, -, hexact, hmem, -⟩ := ofCoords_is_exact hfits
  obtain ⟨-, hexceeds, -⟩ := ofCoords_is_exact hwide
  refine ⟨hfits, hexact _ rfl, hmem _ fun c => ?_, hexceeds.1 rfl⟩
  simp only [List.mem_cons]
  tauto

end BoundingBox

end Cellular
