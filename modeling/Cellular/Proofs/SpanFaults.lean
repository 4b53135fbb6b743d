import Cellular.Proofs.Raster

/-!
# How positioning fails

What is computed from a pattern without regard to its position fails for the patterns
that exceed the span, with one kind of exception.  Codes are written cell by cell, and in
arithmetic that checks its results a pattern with almost as many rows as a box may have
ends the writing.  The first code needs the codes of all orientations, and so it is not
found either if a pattern has almost as many columns.
-/

namespace Cellular

open Grid

variable {g h : Grid} {box : BoundingBox} {facing : Transform → Grid} {n : ℤ}

/-! ## The sizes of the orientations -/

/-- The outermost of some points are at least so far apart, along an axis, exactly if some two
of the points are. -/
theorem le_extent_iff {coords : List Coord} {axis : Coord → ℤ} {first last : ℤ}
    (hfirst : ∀ c ∈ coords, first ≤ axis c) (hlast : ∀ c ∈ coords, axis c ≤ last)
    (hexistsFirst : ∃ c ∈ coords, axis c = first) (hexistsLast : ∃ c ∈ coords, axis c = last) :
    n ≤ last - first + 1 ↔ ∃ c ∈ coords, ∃ d ∈ coords, n ≤ axis c - axis d + 1 := by
  constructor
  · intro hle
    obtain ⟨d, hd, rfl⟩ := hexistsFirst
    obtain ⟨c, hc, rfl⟩ := hexistsLast
    exact ⟨c, hc, d, hd, hle⟩
  · rintro ⟨c, hc, d, hd, hle⟩
    have hc := hlast c hc
    have hd := hfirst d hd
    omega

namespace BoundingBox.IsTight

variable {coords : List Coord}

theorem le_height_iff (htight : box.IsTight coords) :
    n ≤ box.height ↔ ∃ c ∈ coords, ∃ d ∈ coords, n ≤ c.y - d.y + 1 := by
  have hheight : box.height = box.maxY - box.y + 1 := by
    rw [BoundingBox.maxY]
    omega
  rw [hheight]
  exact le_extent_iff htight.top_le htight.le_bottom htight.exists_top htight.exists_bottom

theorem le_width_iff (htight : box.IsTight coords) :
    n ≤ box.width ↔ ∃ c ∈ coords, ∃ d ∈ coords, n ≤ c.x - d.x + 1 := by
  have hwidth : box.width = box.maxX - box.x + 1 := by
    rw [BoundingBox.maxX]
    omega
  rw [hwidth]
  exact le_extent_iff htight.left_le htight.le_right htight.exists_left htight.exists_right

end BoundingBox.IsTight

namespace Grid

variable {t : Transform}

/-- A copy is at least as high as the motion takes two cells apart. -/
theorem IsCopy.exists_le_height (hcopy : IsCopy t g h) (hbox : g.boundingBox = .ok box)
    {a b : Coord} (ha : a ∈ g.coords) (hb : b ∈ g.coords)
    (hle : n ≤ (t.apply a).y - (t.apply b).y + 1) :
    ∃ moved, h.boundingBox = .ok moved ∧ n ≤ moved.height := by
  obtain ⟨moved, hmoved⟩ := hcopy.exists_boundingBox hbox
  obtain ⟨d, hd⟩ := hcopy
  refine ⟨moved, hmoved, (BoundingBox.isTight_of_ofCoords hmoved).le_height_iff.2 ?_⟩
  refine ⟨_, (hd _).2 ⟨a, ha, rfl⟩, _, (hd _).2 ⟨b, hb, rfl⟩, ?_⟩
  simp only [Coord.add_y]
  omega

/-- A copy is not higher than the grid in the direction that the motion turns upright. -/
theorem IsCopy.le_max (hcopy : IsCopy t g h) (hbox : g.boundingBox = .ok box)
    {moved : BoundingBox} (hmoved : h.boundingBox = .ok moved) (hle : n ≤ moved.height) :
    n ≤ max box.width box.height := by
  have htight := BoundingBox.isTight_of_ofCoords hbox
  obtain ⟨c, hc, d, hd, hle⟩ := (BoundingBox.isTight_of_ofCoords hmoved).le_height_iff.1 hle
  obtain ⟨e, hcopy⟩ := hcopy
  obtain ⟨a, ha, rfl⟩ := (hcopy c).1 hc
  obtain ⟨b, hb, rfl⟩ := (hcopy d).1 hd
  rw [le_max_iff, htight.le_width_iff, htight.le_height_iff]
  -- The distance is one of rows or of columns, and in either order of the cells.
  cases t <;> simp only [Transform.apply, Coord.add_y] at hle
  case identity | flipX => exact Or.inr ⟨a, ha, b, hb, by omega⟩
  case rot180 | flipY => exact Or.inr ⟨b, hb, a, ha, by omega⟩
  case rot90 | flipDiagonal => exact Or.inl ⟨a, ha, b, hb, by omega⟩
  case rot270 | flipAntiDiagonal => exact Or.inl ⟨b, hb, a, ha, by omega⟩

/-- Some orientation of a pattern is as high as the pattern is wide, and some is as high as
the pattern. -/
theorem exists_le_height_iff (horiented : OrientedBy g facing) (hbox : g.boundingBox = .ok box) :
    (∃ t moved, (facing t).boundingBox = .ok moved ∧ n ≤ moved.height) ↔
      n ≤ max box.width box.height := by
  have htight := BoundingBox.isTight_of_ofCoords hbox
  have hcopy : ∀ t, IsCopy t g (facing t) := fun t => (horiented.faces t).isCopy
  constructor
  · rintro ⟨t, moved, hmoved, hle⟩
    exact (hcopy t).le_max hbox hmoved hle
  · intro hle
    rw [le_max_iff, htight.le_width_iff, htight.le_height_iff] at hle
    rcases hle with ⟨a, ha, b, hb, hle⟩ | ⟨a, ha, b, hb, hle⟩
    · exact ⟨.rot90, (hcopy .rot90).exists_le_height hbox ha hb hle⟩
    · exact ⟨.identity, (hcopy .identity).exists_le_height hbox ha hb hle⟩

end Grid

namespace Apgcode

/-! ## The first code, cell by cell -/

section First

variable {row? : ℕ → ℕ → Option ℤ} {codes : Transform → Apgcode}

theorem rasters?_eq_some
    (hcodes : ∀ t, raster? row? (facing t) = some (.ok (codes t))) (ts : List Transform) :
    rasters? row? (ts.map fun t => (t, facing t)) = some (.ok (ts.map codes)) := by
  induction ts with
  | nil => rfl
  | cons t rest ih =>
    rw [List.map_cons, rasters?, hcodes, ih]
    rfl

theorem rasters?_eq_none {t : Transform} {ts : List Transform} (ht : t ∈ ts)
    (hnone : raster? row? (facing t) = none)
    (hcodes : ∀ u, raster? row? (facing u) = none ∨
      raster? row? (facing u) = some (.ok (codes u))) :
    rasters? row? (ts.map fun t => (t, facing t)) = none := by
  induction ts with
  | nil => cases ht
  | cons u rest ih =>
    rw [List.map_cons, rasters?]
    rcases hcodes u with hu | hu
    · rw [hu]
    · have hne : t ≠ u := by
        rintro rfl
        rw [hu] at hnone
        cases hnone
      rw [hu, ih ((List.mem_cons.1 ht).resolve_left hne)]
      rfl

/-- If the code of every orientation can be written cell by cell, so can the first one. -/
theorem rasterMinimal?_eq_some (hrasters : ∀ facing, OrientedBy g facing →
      ∀ t, raster? row? (facing t) = some (ofGrid (facing t))) :
    rasterMinimal? row? g = some (minimal g) := by
  by_cases hnarrow : g.Narrow
  · obtain ⟨facing, hfacing⟩ := exists_orientedBy hnarrow
    have hcodes := fun t => exists_code_of_faces (hfacing.faces t)
    choose codes hcodes _ using hcodes
    have hrasters : ∀ t, raster? row? (facing t) = some (.ok (codes t)) := fun t =>
      (hrasters facing hfacing t).trans (congrArg some (hcodes t))
    rw [rasterMinimal?, minimal, hfacing.orientations_eq]
    simp only [bind, Except.bind]
    rw [rasters?_eq_some hrasters, ofGrids_eq hcodes]
    rfl
  · rw [rasterMinimal?, minimal, orientations_of_not_narrow hnarrow]
    rfl

theorem rasterMinimal?_eq_none (horiented : OrientedBy g facing) {t : Transform}
    (hnone : raster? row? (facing t) = none)
    (hcodes : ∀ u, raster? row? (facing u) = none ∨
      raster? row? (facing u) = some (ofGrid (facing u))) :
    rasterMinimal? row? g = none := by
  have hofGrid := fun u => exists_code_of_faces (horiented.faces u)
  choose codes hofGrid _ using hofGrid
  have hlisted : t ∈ orientationOrder := by cases t <;> decide
  simp only [hofGrid] at hcodes
  rw [rasterMinimal?, horiented.orientations_eq]
  simp only [rasters?_eq_none hlisted hnone hcodes]
  rfl

end First

/-! ## Writing in the span -/

/-- A writing of codes fails for the patterns that exceed the span, ends without a result
for the patterns with a large box, and otherwise gives the code that `operation` gives. -/
structure EndsOn (write : Grid → Option (Except GridError Apgcode))
    (operation : Grid → Except GridError Apgcode) (large : BoundingBox → Prop) : Prop where
  eq_error_iff : ∀ g e, write g = some (.error e) ↔ g.ExceedsSpan ∧ e = .coordinateOverflow
  eq_none_iff : ∀ g, write g = none ↔ ∃ box, g.boundingBox = .ok box ∧ large box
  eq_some_iff : ∀ g code, write g = some (.ok code) ↔
    operation g = .ok code ∧ ∀ box, g.boundingBox = .ok box → ¬ large box

/-- Where a writing that does not end gives what an operation gives, it fails as the
operation does. -/
theorem endsOn_of_failsOnExcess {write : Grid → Option (Except GridError Apgcode)}
    {operation : Grid → Except GridError Apgcode} {large : BoundingBox → Prop}
    (hfails : FailsOnExcess operation)
    (hnone : ∀ {g box}, g.boundingBox = .ok box → large box → write g = none)
    (hsome : ∀ {g}, (∀ box, g.boundingBox = .ok box → ¬ large box) →
      write g = some (operation g)) : EndsOn write operation large := by
  have hcases : ∀ g, (∃ box, g.boundingBox = .ok box ∧ large box) ∧ write g = none ∨
      (∀ box, g.boundingBox = .ok box → ¬ large box) ∧ write g = some (operation g) := by
    intro g
    by_cases hlarge : ∃ box, g.boundingBox = .ok box ∧ large box
    · obtain ⟨box, hbox, hlarge⟩ := hlarge
      exact Or.inl ⟨⟨box, hbox, hlarge⟩, hnone hbox hlarge⟩
    · push Not at hlarge
      exact Or.inr ⟨hlarge, hsome hlarge⟩
  constructor
  · intro g e
    rw [← hfails g e]
    rcases hcases g with ⟨⟨box, hbox, -⟩, hwrite⟩ | ⟨-, hwrite⟩
    · rw [hwrite]
      refine iff_of_false (fun h => by cases h) fun herror => ?_
      exact not_exceedsSpan_of_boundingBox hbox ((hfails g e).1 herror).1
    · rw [hwrite, Option.some.injEq]
  · intro g
    rcases hcases g with ⟨hlarge, hwrite⟩ | ⟨hsmall, hwrite⟩
    · exact iff_of_true hwrite hlarge
    · rw [hwrite]
      exact iff_of_false (fun h => by cases h) fun ⟨box, hbox, hlarge⟩ => hsmall box hbox hlarge
  · intro g code
    rcases hcases g with ⟨⟨box, hbox, hlarge⟩, hwrite⟩ | ⟨hsmall, hwrite⟩
    · rw [hwrite]
      exact iff_of_false (fun h => by cases h) fun h => h.2 box hbox hlarge
    · rw [hwrite, Option.some.injEq]
      exact ⟨fun hcode => ⟨hcode, hsmall⟩, And.left⟩

theorem endsOn_raster : EndsOn (raster? rowInSpan?) ofGrid
    fun box => Coord.greatest - 1 ≤ box.height :=
  endsOn_of_failsOnExcess failsOnExcess_ofGrid raster?_rowInSpan?_eq_none
    fun hlow => raster?_rowInSpan?_eq_some fun box hbox => not_le.1 (hlow box hbox)

theorem endsOn_rasterMinimal : EndsOn (rasterMinimal? rowInSpan?) minimal
    fun box => Coord.greatest - 1 ≤ max box.width box.height := by
  refine endsOn_of_failsOnExcess failsOnExcess_minimal ?_ ?_
  · intro g box hbox hlarge
    obtain ⟨facing, hfacing⟩ := exists_orientedBy (narrow_of_boundingBox hbox)
    obtain ⟨t, moved, hmoved, htall⟩ := (exists_le_height_iff hfacing hbox).2 hlarge
    apply rasterMinimal?_eq_none hfacing (raster?_rowInSpan?_eq_none hmoved htall)
    intro u
    cases hu : raster? rowInSpan? (facing u) with
    | none => exact Or.inl rfl
    | some result => exact Or.inr (congrArg some (eq_of_raster?_rowInSpan? hu))
  · intro g hsmall
    apply rasterMinimal?_eq_some
    intro facing hfacing t
    apply raster?_rowInSpan?_eq_some
    intro moved hmoved
    obtain ⟨box, hbox⟩ := (hfacing.faces t).isCopy.symm.exists_boundingBox hmoved
    by_contra htall
    exact hsmall box hbox
      ((exists_le_height_iff hfacing hbox).1 ⟨t, moved, hmoved, not_lt.1 htall⟩)

end Apgcode

namespace Grid

open Apgcode (rowInSpan? rowInWord raster? rasterMinimal?)

/-- **What fails for patterns that exceed the span.**  The operations that ask for a pattern
at the origin fail exactly for the patterns that exceed the span, and say so; digests do
whatever the hash of the cells is.  Codes that are written cell by cell fail in the same way,
but in arithmetic that checks its results they are not written for patterns of almost as many
rows, or for the first code of all orientations rows or columns, as a box may have; they are
in arithmetic that wraps around.  Every pattern that does not exceed the span, the empty one
and those at the ends of the span included, has its eight orientations. -/
theorem positioning_fails_on_excess (hash : Coord → Digest) :
    (FailsOnExcess normalized ∧ FailsOnExcess orientations ∧ FailsOnExcess automorphisms) ∧
    (FailsOnExcess (orientationDigestsBy hash) ∧ FailsOnExcess (digestBy hash) ∧
      FailsOnExcess (canonicalizeBy hash) ∧ FailsOnExcess (canonicalDigestBy hash) ∧
      FailsOnExcess (symmetricDigestBy hash)) ∧
    (Apgcode.EndsOn (raster? rowInSpan?) Apgcode.ofGrid
        (fun box => Coord.greatest - 1 ≤ box.height) ∧
      Apgcode.EndsOn (rasterMinimal? rowInSpan?) Apgcode.minimal
        (fun box => Coord.greatest - 1 ≤ max box.width box.height)) ∧
    (FailsOnExcess Apgcode.ofGrid ∧ FailsOnExcess Apgcode.minimal ∧
      ∀ g, raster? (fun band height => some (rowInWord band height)) g =
          some (Apgcode.ofGrid g) ∧
        rasterMinimal? (fun band height => some (rowInWord band height)) g =
          some (Apgcode.minimal g)) ∧
    ∀ g : Grid, ¬ g.ExceedsSpan → g.CanBeOriented := by
  refine ⟨⟨failsOnExcess_normalized, failsOnExcess_orientations, failsOnExcess_automorphisms⟩,
    ⟨failsOnExcess_orientationDigestsBy hash, failsOnExcess_digestBy hash,
      failsOnExcess_canonicalizeBy hash, failsOnExcess_canonicalDigestBy hash,
      failsOnExcess_symmetricDigestBy hash⟩,
    ⟨Apgcode.endsOn_raster, Apgcode.endsOn_rasterMinimal⟩,
    ⟨Apgcode.failsOnExcess_ofGrid, Apgcode.failsOnExcess_minimal, fun g => ?_⟩, fun g hg => ?_⟩
  · exact ⟨Apgcode.raster?_rowInWord_eq g,
      Apgcode.rasterMinimal?_eq_some fun _ _ _ => Apgcode.raster?_rowInWord_eq _⟩
  · rw [exceedsSpan_iff, not_not] at hg
    exact canBeOriented_of_narrow hg

/-- Pairs of cells that do not exceed the span: for the one in a column no code is written,
and for the one in a row a code is, but not that of its quarter turn, and so the first of its
codes is not found.  With one more column the pair exceeds the span. -/
theorem cornerPair_has_no_first_code :
    (¬ Apgcode.tallestPair.ExceedsSpan ∧ raster? rowInSpan? Apgcode.tallestPair = none) ∧
      (¬ (cornerPair (-2)).ExceedsSpan ∧
        (∃ code, raster? rowInSpan? (cornerPair (-2)) = some (.ok code)) ∧
        rasterMinimal? rowInSpan? (cornerPair (-2)) = none) ∧
      (cornerPair (-1)).ExceedsSpan := by
  have htall : Apgcode.tallestPair.boundingBox = .ok ⟨0, 0, 1, Coord.greatest⟩ := by
    decide +kernel
  have hwide : (cornerPair (-2)).boundingBox =
      .ok ⟨Coord.least, Coord.greatest, Coord.greatest, 1⟩ := by
    decide +kernel
  have hexceeds : (cornerPair (-1)).ExceedsSpan := by decide +kernel
  have hnear : Coord.greatest - 1 ≤ Coord.greatest := by decide
  have hlow : ∀ box, (cornerPair (-2)).boundingBox = .ok box →
      ¬ Coord.greatest - 1 ≤ box.height := by
    intro box hbox
    rw [hwide] at hbox
    cases hbox
    decide
  obtain ⟨code, hcode⟩ : ∃ code, Apgcode.ofGrid (cornerPair (-2)) = .ok code := by
    obtain ⟨h, hnormalized⟩ := exists_normalized (narrow_of_boundingBox hwide)
    rw [Apgcode.ofGrid_eq_atOrigin hnormalized]
    exact Apgcode.exists_atOrigin hnormalized
  exact ⟨⟨not_exceedsSpan_of_boundingBox htall, Apgcode.raster?_rowInSpan?_eq_none htall hnear⟩,
    ⟨not_exceedsSpan_of_boundingBox hwide,
      ⟨code, (Apgcode.endsOn_raster.eq_some_iff _ _).2 ⟨hcode, hlow⟩⟩,
      (Apgcode.endsOn_rasterMinimal.eq_none_iff _).2 ⟨_, hwide, le_max_of_le_left hnear⟩⟩,
    hexceeds⟩

end Grid

end Cellular
