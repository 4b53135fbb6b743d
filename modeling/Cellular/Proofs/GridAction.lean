import Cellular.Proofs.Position

/-!
# The symmetries of the square acting on grids

The span of the coordinates is not symmetric: its least coordinate has no opposite in
it.  So a symmetry can be refused, but for that reason only, and where it is not refused
the symmetries act on grids as they do on the plane: one is undone by its inverse, which
is never refused, and two in turn are their composition, which is not refused either.
-/

namespace Cellular

namespace Transform

/-- The symmetry takes the opposite of the x coordinate. -/
def negatesX : Transform → Bool
  | identity | rot90 | flipY | flipDiagonal => false
  | rot180 | rot270 | flipX | flipAntiDiagonal => true

/-- The symmetry takes the opposite of the y coordinate. -/
def negatesY : Transform → Bool
  | identity | rot270 | flipX | flipDiagonal => false
  | rot90 | rot180 | flipY | flipAntiDiagonal => true

/-- The symmetry takes the opposite of a coordinate of the point that has none in the
span. -/
def Overflows (t : Transform) (c : Coord) : Prop :=
  (t.negatesX = true ∧ c.x = Coord.least) ∨ (t.negatesY = true ∧ c.y = Coord.least)

instance (t : Transform) (c : Coord) : Decidable (t.Overflows c) :=
  inferInstanceAs (Decidable (_ ∨ _))

theorem fits_apply_iff {t : Transform} {c : Coord} (hfits : c.Fits) :
    (t.apply c).Fits ↔ ¬ t.Overflows c := by
  simp only [Coord.Fits, Coord.least, Coord.greatest, Overflows] at hfits ⊢
  cases t <;>
    simp only [apply, negatesX, negatesY, Bool.false_eq_true, true_and, false_and, or_false,
      false_or, not_false_iff, iff_true] <;>
    omega

theorem apply_apply_inverse (t : Transform) (c : Coord) :
    t.apply (t.inverse.apply c) = c := by
  cases t <;> simp [inverse, apply]

end Transform

namespace Grid

variable {g h k : Grid} {t u : Transform}

/-- Turning a grid takes every state along, and nothing else is asked of the result. -/
theorem transformed_eq_ok_iff :
    g.transformed t = .ok h ↔
      (∀ c ∈ g.coords, (t.apply c).Fits) ∧ ∀ c, h.state (t.apply c) = g.state c := by
  have hinjective : Function.Injective t.apply :=
    Function.LeftInverse.injective t.apply_inverse
  constructor
  · intro htransformed
    exact ⟨(remap_eq_ok_iff.1 htransformed).1, state_remap htransformed hinjective⟩
  · rintro ⟨hfits, hstate⟩
    have hturned : g.transformed t = .ok _ := remap_eq_ok_iff.2 ⟨hfits, rfl⟩
    rw [hturned, Except.ok.injEq]
    apply ext_state
    intro c
    rw [← t.apply_apply_inverse c, hstate, state_remap hturned hinjective]

theorem transformed_eq_error_iff {e : GridError} :
    g.transformed t = .error e ↔
      (∃ c ∈ g.coords, ¬ (t.apply c).Fits) ∧ e = .coordinateOverflow := by
  rw [transformed, remap]
  split
  · rename_i hfits
    simpa using fun c hc hout => absurd (hfits c hc) hout
  · rename_i hout
    have hsome : ∃ c ∈ g.coords, ¬ (t.apply c).Fits := by simpa using hout
    rw [Except.error.injEq, and_iff_right hsome, eq_comm]

/-- A grid that was turned can be turned back. -/
theorem transformed_inverse (hfits : ∀ c ∈ g.coords, c.Fits)
    (htransformed : g.transformed t = .ok h) : h.transformed t.inverse = .ok g := by
  obtain ⟨-, hstate⟩ := transformed_eq_ok_iff.1 htransformed
  have hback : ∀ d, g.state (t.inverse.apply d) = h.state d := by
    intro d
    rw [← hstate, t.apply_apply_inverse]
  refine transformed_eq_ok_iff.2 ⟨fun d hd => ?_, hback⟩
  apply hfits
  rw [mem_coords_iff, hback]
  exact mem_coords_iff.1 hd

/-- Two symmetries in turn are their composition. -/
theorem transformed_andThen (hfirst : g.transformed t = .ok h)
    (hsecond : h.transformed u = .ok k) : g.transformed (t.andThen u) = .ok k := by
  obtain ⟨-, hgh⟩ := transformed_eq_ok_iff.1 hfirst
  obtain ⟨hfits, hhk⟩ := transformed_eq_ok_iff.1 hsecond
  refine transformed_eq_ok_iff.2 ⟨fun c hc => ?_, fun c => ?_⟩
  · rw [Transform.apply_andThen]
    apply hfits
    rw [mem_coords_iff, hgh]
    exact mem_coords_iff.1 hc
  · rw [Transform.apply_andThen, hhk, hgh]

/-- **The symmetries act on grids, as far as the span allows.**  A symmetry is refused
exactly if it takes the opposite of a least coordinate of some live cell.  Otherwise the
result has as many live cells, in the states they had; the inverse symmetry takes it back
to the grid; and a further symmetry that is not refused gives what the composition of the
two gives. -/
theorem transformed_acts_within_span (hfits : ∀ c ∈ g.coords, c.Fits) (t : Transform) :
    (∀ e, g.transformed t = .error e ↔
      (∃ c ∈ g.coords, t.Overflows c) ∧ e = .coordinateOverflow) ∧
    g.transformed .identity = .ok g ∧
    ∀ h, g.transformed t = .ok h →
      h.population = g.population ∧ (∀ c, h.state (t.apply c) = g.state c) ∧
      h.transformed t.inverse = .ok g ∧
      ∀ u k, h.transformed u = .ok k → g.transformed (t.andThen u) = .ok k := by
  refine ⟨fun e => ?_, ?_, fun h htransformed => ⟨?_, ?_, ?_, ?_⟩⟩
  · have hout : (∃ c ∈ g.coords, ¬ (t.apply c).Fits) ↔ ∃ c ∈ g.coords, t.Overflows c := by
      refine exists_congr fun c => and_congr_right fun hc => ?_
      rw [Transform.fits_apply_iff (hfits c hc), not_not]
    rw [transformed_eq_error_iff, hout]
  · exact transformed_eq_ok_iff.2 ⟨hfits, fun _ => rfl⟩
  · exact (isImage_of_transformed htransformed).population_eq
  · exact (transformed_eq_ok_iff.1 htransformed).2
  · exact transformed_inverse hfits htransformed
  · exact fun u k hsecond => transformed_andThen htransformed hsecond

/-- Two cells in the first column of the span: they can be turned by a quarter, but not
by two. -/
def leftEdge : Grid :=
  .ofCells [(⟨Coord.least, 5⟩, 2), (⟨Coord.least, Coord.greatest⟩, 1)]

theorem leftEdge_is_turned :
    let turned : Grid :=
      .ofCells [(⟨-Coord.greatest, Coord.least⟩, 1), (⟨-5, Coord.least⟩, 2)]
    (∀ c ∈ leftEdge.coords, c.Fits) ∧
      leftEdge.transformed .rot180 = .error .coordinateOverflow ∧
      leftEdge.transformed .rot90 = .ok turned ∧
      turned.transformed .rot270 = .ok leftEdge ∧
      leftEdge.transformed .flipDiagonal = turned.transformed .flipX := by
  intro turned
  have hfits : ∀ c ∈ leftEdge.coords, c.Fits := by decide +kernel
  have hturned : leftEdge.transformed .rot90 = .ok turned := by decide +kernel
  obtain ⟨hrefused, -, -⟩ := transformed_acts_within_span hfits .rot180
  obtain ⟨-, -, hacts⟩ := transformed_acts_within_span hfits .rot90
  obtain ⟨-, -, hback, htwice⟩ := hacts turned hturned
  refine ⟨hfits, (hrefused _).2 ⟨by decide +kernel, rfl⟩, hturned, hback, ?_⟩
  have hflipped : ∃ k, turned.transformed .flipX = .ok k := ⟨_, rfl⟩
  obtain ⟨k, hk⟩ := hflipped
  rw [hk]
  exact htwice _ _ hk

end Grid

end Cellular
