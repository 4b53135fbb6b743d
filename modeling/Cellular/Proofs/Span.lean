import Mathlib.Order.Bounds.Defs
import Cellular.Proofs.Bounds
import Cellular.Proofs.MinimalCode

/-!
# Patterns that exceed the span

Whatever is computed from a pattern without regard to its position starts by
bringing it to the origin.  That can fail for one reason only: there are more
columns or rows between its outermost cells than a box may have.  A pattern that is
not too large in this sense has all its orientations, wherever it lies, be it at the
very ends of the span.
-/

namespace Cellular

namespace Grid

/-- The columns with live cells. -/
def columns (g : Grid) : Set ℤ :=
  {x | ∃ c ∈ g.coords, c.x = x}

/-- The rows with live cells. -/
def rows (g : Grid) : Set ℤ :=
  {y | ∃ c ∈ g.coords, c.y = y}

/-- From the least to the greatest column with live cells, or from the least to the
greatest such row, there are more than a box may have. -/
def ExceedsSpan (g : Grid) : Prop :=
  ∃ left right top bottom, IsLeast g.columns left ∧ IsGreatest g.columns right ∧
    IsLeast g.rows top ∧ IsGreatest g.rows bottom ∧
    (Coord.greatest < right - left + 1 ∨ Coord.greatest < bottom - top + 1)

variable {g : Grid}

theorem exceedsSpan_iff : g.ExceedsSpan ↔ ¬ g.Narrow :=
  BoundingBox.exceedSpan_iff

theorem not_exceedsSpan_of_boundingBox {box : BoundingBox} (hbox : g.boundingBox = .ok box) :
    ¬ g.ExceedsSpan := by
  intro hexceeds
  have hoverflow : g.boundingBox = .error .coordinateOverflow :=
    BoundingBox.ofCoords_eq_overflow_iff.2 hexceeds
  rw [hbox] at hoverflow
  cases hoverflow

theorem narrow_of_boundingBox {box : BoundingBox} (hbox : g.boundingBox = .ok box) :
    g.Narrow :=
  not_not.1 (mt exceedsSpan_iff.2 (not_exceedsSpan_of_boundingBox hbox))

/-- The copies of a pattern that has a box have boxes. -/
theorem IsCopy.exists_boundingBox {t : Transform} {h : Grid} {box : BoundingBox}
    (hcopy : IsCopy t g h) (hbox : g.boundingBox = .ok box) :
    ∃ moved, h.boundingBox = .ok moved := by
  obtain ⟨c, hc, -⟩ := (BoundingBox.isTight_of_ofCoords hbox).exists_left
  have hnarrow := hcopy.narrow (narrow_of_boundingBox hbox)
  obtain ⟨d, hd⟩ := hcopy
  apply BoundingBox.exists_ofCoords_eq_ok (List.ne_nil_of_mem ((hd _).2 ⟨c, hc, rfl⟩))
  exact fun hexceeds => exceedsSpan_iff.1 hexceeds hnarrow

instance (g : Grid) : Decidable g.ExceedsSpan :=
  decidable_of_iff _ exceedsSpan_iff.symm

/-- Two cells in the last row of the span, of which one is in its first column. -/
def cornerPair (x : ℤ) : Grid :=
  .ofCoords [⟨Coord.least, Coord.greatest⟩, ⟨x, Coord.greatest⟩]

/-- An operation fails for the grids that exceed the span and for no others, and
names the reason. -/
def FailsOnExcess {α : Type} (operation : Grid → Except GridError α) : Prop :=
  ∀ g e, operation g = .error e ↔ g.ExceedsSpan ∧ e = .coordinateOverflow

theorem failsOnExcess_of {α : Type} {operation : Grid → Except GridError α}
    (hnarrow : ∀ g, g.Narrow → ∃ result, operation g = .ok result)
    (hwide : ∀ g, ¬ g.Narrow → operation g = .error .coordinateOverflow) :
    FailsOnExcess operation := by
  intro g e
  rw [exceedsSpan_iff]
  by_cases hg : g.Narrow
  · obtain ⟨result, hresult⟩ := hnarrow g hg
    simp [hresult, hg]
  · simp [hwide g hg, hg, eq_comm]

/-! ## The orientations -/

theorem fits_of_remap {f : Coord → Coord} {h : Grid} (hremap : g.remap f = .ok h) :
    ∀ c ∈ h.coords, c.Fits := by
  intro c hc
  obtain ⟨b, hb, rfl⟩ := (mem_coords_remap_iff hremap).1 hc
  exact (remap_eq_ok_iff.1 hremap).1 b hb

theorem fits_of_normalized {h : Grid} (hnormalized : g.normalized = .ok h) :
    ∀ c ∈ h.coords, c.Fits := by
  rcases normalized_eq_ok hnormalized with ⟨-, rfl⟩ | ⟨box, -, hremap⟩
  · intro c hc
    cases hc
  · exact fits_of_remap hremap

/-- The pattern can be brought to the origin, turned there by each of the eight
symmetries and brought to the origin again, with all cells in the span after each of
these motions, and so its orientations are listed. -/
def CanBeOriented (g : Grid) : Prop :=
  ∃ (base : Grid) (turned upright : Transform → Grid),
    g.presence.normalized = .ok base ∧ (∀ c ∈ base.coords, c.Fits) ∧
    (∀ t, base.transformed t = .ok (turned t) ∧ (∀ c ∈ (turned t).coords, c.Fits) ∧
      (turned t).normalized = .ok (upright t) ∧ ∀ c ∈ (upright t).coords, c.Fits) ∧
    g.orientations = .ok (orientationOrder.map fun t => (t, upright t))

theorem canBeOriented_of_narrow (hnarrow : g.Narrow) : g.CanBeOriented := by
  have hpresence := isCopy_presence g
  obtain ⟨base, hbase⟩ := exists_normalized (hpresence.narrow hnarrow)
  have hbaseNarrow := narrow_of_normalized hbase
  have hturned := exists_transformed hbaseNarrow (atOrigin_of_normalized hbase)
  choose turned hturned using hturned
  have hupright : ∀ t, ∃ h, (turned t).normalized = .ok h := fun t =>
    exists_normalized ((isCopy_of_transformed (hturned t)).narrow hbaseNarrow)
  choose upright hupright using hupright
  have horiented : ∀ t, base.oriented t = .ok (upright t) := by
    intro t
    rw [oriented, hturned]
    exact hupright t
  refine ⟨base, turned, upright, hbase, fits_of_normalized hbase, fun t => ?_, ?_⟩
  · exact ⟨hturned t, fits_of_remap (hturned t), hupright t, fits_of_normalized (hupright t)⟩
  · rw [orientations, hbase]
    exact orientedAll_eq horiented orientationOrder

/-! ## The operations -/

theorem failsOnExcess_normalized : FailsOnExcess normalized :=
  failsOnExcess_of (fun _ => exists_normalized) fun _ => normalized_of_not_narrow

/-- What needs all orientations succeeds and fails with them. -/
theorem failsOnExcess_of_orientations {α : Type} {operation : Grid → Except GridError α}
    (hok : ∀ {g facing}, OrientedBy g facing → ∃ result, operation g = .ok result)
    (herror : ∀ {g e}, g.orientations = .error e → operation g = .error e) :
    FailsOnExcess operation := by
  refine failsOnExcess_of (fun g hg => ?_) fun g hg => ?_
  · obtain ⟨facing, hfacing⟩ := exists_orientedBy hg
    exact hok hfacing
  · exact herror (orientations_of_not_narrow hg)

theorem failsOnExcess_orientations : FailsOnExcess orientations :=
  failsOnExcess_of_orientations (fun horiented => ⟨_, horiented.orientations_eq⟩) id

theorem failsOnExcess_automorphisms : FailsOnExcess automorphisms := by
  refine failsOnExcess_of_orientations (fun horiented => ?_) fun herror => ?_
  · rw [automorphisms, horiented.orientations_eq]
    exact ⟨_, rfl⟩
  · rw [automorphisms, herror]
    rfl

section Digests

variable (hash : Coord → Digest)

theorem failsOnExcess_digestBy : FailsOnExcess (digestBy hash) := by
  refine failsOnExcess_of (fun g hg => ?_) fun g hg => ?_
  · obtain ⟨h, hnormalized⟩ := exists_normalized hg
    rw [digestBy, hnormalized]
    exact ⟨_, rfl⟩
  · rw [digestBy, normalized_of_not_narrow hg]
    rfl

theorem failsOnExcess_orientationDigestsBy : FailsOnExcess (orientationDigestsBy hash) :=
  failsOnExcess_of_orientations
    (fun horiented => ⟨_, horiented.orientationDigestsBy_eq hash⟩)
    fun herror => (digestsRefused_of_orientations hash herror).orientationDigests

theorem failsOnExcess_canonicalizeBy : FailsOnExcess (canonicalizeBy hash) := by
  refine failsOnExcess_of_orientations (fun horiented => ?_) fun herror =>
    (digestsRefused_of_orientations hash herror).canonicalize
  obtain ⟨t, ht, -⟩ := horiented.exists_canonicalizeBy hash
  exact ⟨_, ht⟩

theorem failsOnExcess_canonicalDigestBy : FailsOnExcess (canonicalDigestBy hash) := by
  refine failsOnExcess_of_orientations (fun horiented => ?_) fun herror =>
    (digestsRefused_of_orientations hash herror).canonicalDigest
  obtain ⟨t, ht, -⟩ := horiented.exists_canonicalizeBy hash
  rw [canonicalDigestBy, ht]
  exact ⟨_, rfl⟩

theorem failsOnExcess_symmetricDigestBy : FailsOnExcess (symmetricDigestBy hash) :=
  failsOnExcess_of_orientations
    (fun horiented => ⟨_, horiented.symmetricDigestBy_eq hash⟩)
    fun herror => (digestsRefused_of_orientations hash herror).symmetricDigest

end Digests

end Grid

namespace Apgcode

open Grid

theorem failsOnExcess_ofGrid : FailsOnExcess ofGrid := by
  refine failsOnExcess_of (fun g hg => ?_) fun g hg => ?_
  · obtain ⟨h, hnormalized⟩ := exists_normalized hg
    rw [ofGrid_eq_atOrigin hnormalized]
    exact exists_atOrigin hnormalized
  · rw [ofGrid, normalized_of_not_narrow hg]
    rfl

theorem failsOnExcess_minimal : FailsOnExcess minimal := by
  refine failsOnExcess_of_orientations (fun horiented => ?_) fun herror => ?_
  · obtain ⟨t, code, hcode, -⟩ := exists_minimal horiented
    exact ⟨code, hcode⟩
  · rw [minimal, herror]
    rfl

end Apgcode

end Cellular
