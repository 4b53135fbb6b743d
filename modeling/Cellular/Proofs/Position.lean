import Cellular.Proofs.Span

/-!
# Positions of grids

A grid with its states has one image at the origin for each symmetry of the square.
Bringing a grid to the origin finds the image for the identity, so it makes no
difference where the grid was before, and turning the grid first is turning it at the
origin and bringing it back there.
-/

namespace Cellular

theorem Transform.injective_apply_add (t : Transform) (d : Coord) :
    Function.Injective fun c => t.apply c + d := by
  intro b c heq
  have hsame := congrArg (fun e => t.inverse.apply (e - d)) heq
  simpa only [Coord.add_sub_cancel, apply_inverse] using hsame

/-- A motion undoes the motion back. -/
theorem Transform.apply_motion_back (t : Transform) (d c : Coord) :
    t.apply (t.inverse.apply c + (⟨0, 0⟩ - t.inverse.apply d)) + d = c := by
  rw [Coord.add_zero_sub, Coord.ext_iff]
  cases t <;>
    simp only [apply, inverse, Coord.add_x, Coord.add_y, Coord.sub_x, Coord.sub_y] <;>
    omega

namespace Grid

/-- `h` is the grid `g` with all its states, moved by the symmetry `t` and then by a
displacement. -/
def IsImage (t : Transform) (g h : Grid) : Prop :=
  ∃ d : Coord, ∀ c, h.state (t.apply c + d) = g.state c

variable {g h k : Grid} {t u : Transform}

/-- A copy has as many live cells as the grid. -/
theorem IsCopy.population_eq (hcopy : IsCopy t g h) : h.population = g.population := by
  obtain ⟨d, hd⟩ := hcopy
  have hperm : h.coords.Perm (g.coords.map fun c => t.apply c + d) := by
    rw [List.perm_ext_iff_of_nodup h.nodup_coords
      (g.nodup_coords.map (t.injective_apply_add d))]
    intro c
    rw [hd, List.mem_map]
  have hlength := hperm.length_eq
  rwa [List.length_map, coords, coords, List.length_map, List.length_map] at hlength

namespace IsImage

theorem trans (hgh : IsImage t g h) (hhk : IsImage u h k) :
    IsImage (t.andThen u) g k := by
  obtain ⟨d, hd⟩ := hgh
  obtain ⟨e, he⟩ := hhk
  refine ⟨u.apply d + e, fun c => ?_⟩
  calc
    k.state ((t.andThen u).apply c + (u.apply d + e)) =
        k.state (u.apply (t.apply c + d) + e) := by rw [Transform.apply_apply_add]
    _ = h.state (t.apply c + d) := he _
    _ = g.state c := hd c

theorem symm (himage : IsImage t g h) : IsImage t.inverse h g := by
  obtain ⟨d, hd⟩ := himage
  refine ⟨⟨0, 0⟩ - t.inverse.apply d, fun c => ?_⟩
  rw [← hd, Transform.apply_motion_back]

theorem isCopy (himage : IsImage t g h) : IsCopy t g h := by
  obtain ⟨d, hd⟩ := himage
  have hmem : ∀ b, t.apply b + d ∈ h.coords ↔ b ∈ g.coords := by
    intro b
    rw [mem_coords_iff, mem_coords_iff, hd]
  refine ⟨d, fun c => ?_⟩
  constructor
  · intro hc
    rw [← t.apply_motion_back d c, hmem] at hc
    exact ⟨_, hc, t.apply_motion_back d c⟩
  · rintro ⟨b, hb, rfl⟩
    exact (hmem b).2 hb

/-- An image has as many live cells as the grid. -/
theorem population_eq (himage : IsImage t g h) : h.population = g.population :=
  himage.isCopy.population_eq

/-- At the origin there is room for one image. -/
theorem eq_of_atOrigin (himage : IsImage .identity g h) (hg : g.AtOrigin)
    (hh : h.AtOrigin) : h = g := by
  have hcoords := coords_eq_of_isCopy_identity himage.isCopy hg hh
  obtain ⟨d, hd⟩ := himage
  apply ext_state
  intro c
  by_cases hne : g.coords = []
  · have hblank : ∀ {k : Grid}, k.coords = [] → k.state c = 0 := by
      intro k hk
      rw [state_eq_zero_iff, hk]
      exact List.not_mem_nil
    rw [hblank hne, hblank (hcoords.trans hne)]
  · have hmoved : ∀ b, b + d ∈ h.coords ↔ b ∈ g.coords := by
      intro b
      rw [mem_coords_iff, mem_coords_iff]
      exact not_congr (by rw [← hd b, Transform.apply])
    rw [← hd, Transform.apply, add_eq_self_of_atOrigin hg hh hne hmoved]

end IsImage

/-! ## The operations that make images -/

theorem isImage_of_remap {f : Coord → Coord} (d : Coord)
    (hf : ∀ c, f c = t.apply c + d) (hremap : g.remap f = .ok h) : IsImage t g h := by
  obtain rfl : f = fun c => t.apply c + d := funext hf
  exact ⟨d, state_remap hremap (t.injective_apply_add d)⟩

theorem isImage_of_transformed (htransformed : g.transformed t = .ok h) :
    IsImage t g h :=
  isImage_of_remap ⟨0, 0⟩ (fun _ => (Coord.add_zero _).symm) htransformed

theorem isImage_of_shifted {d : Coord} (hshifted : g.shifted d = .ok h) :
    IsImage .identity g h :=
  isImage_of_remap d (fun _ => rfl) hshifted

theorem isImage_of_normalized (hnormalized : g.normalized = .ok h) :
    IsImage .identity g h := by
  rcases normalized_eq_ok hnormalized with ⟨hnil, rfl⟩ | ⟨box, -, hremap⟩
  · refine ⟨⟨0, 0⟩, fun c => ?_⟩
    have hc : c ∉ g.coords := hnil ▸ List.not_mem_nil
    rw [state_eq_zero_iff.2 hc, state_empty]
  · exact isImage_of_remap (⟨0, 0⟩ - box.corner)
      (fun c => (Coord.add_zero_sub c box.corner).symm) hremap

/-! ## Bringing images to the origin -/

/-- A grid that was moved is brought to the origin as the grid itself is. -/
theorem normalized_eq_of_isImage (himage : IsImage .identity g h) :
    h.normalized = g.normalized := by
  by_cases hnarrow : g.Narrow
  · obtain ⟨base, hbase⟩ := exists_normalized hnarrow
    obtain ⟨moved, hmoved⟩ := exists_normalized (himage.isCopy.narrow hnarrow)
    have hback : IsImage .identity base g := (isImage_of_normalized hbase).symm
    have hwhole := (hback.trans himage).trans (isImage_of_normalized hmoved)
    have hsame := hwhole.eq_of_atOrigin (atOrigin_of_normalized hbase)
      (atOrigin_of_normalized hmoved)
    rw [hbase, hmoved, hsame]
  · rw [normalized_of_not_narrow hnarrow,
      normalized_of_not_narrow (mt himage.isCopy.narrow_iff.1 hnarrow)]

/-- A grid that was turned is brought to the origin as the grid itself is if it is
turned there. -/
theorem normalized_eq_oriented_of_isImage (himage : IsImage t g h) :
    h.normalized = (do
      let base ← g.normalized
      base.oriented t) := by
  by_cases hnarrow : g.Narrow
  · obtain ⟨base, hbase⟩ := exists_normalized hnarrow
    obtain ⟨turned, hturned⟩ := exists_transformed (narrow_of_normalized hbase)
      (atOrigin_of_normalized hbase) t
    have hback : IsImage t.inverse h base := by
      have hwhole := himage.symm.trans (isImage_of_normalized hbase)
      rwa [Transform.andThen_identity] at hwhole
    have hstill : IsImage .identity h turned := by
      have hwhole := hback.trans (isImage_of_transformed hturned)
      rwa [Transform.inverse_andThen] at hwhole
    calc
      h.normalized = turned.normalized := (normalized_eq_of_isImage hstill).symm
      _ = base.oriented t := by
        rw [oriented, hturned]
        rfl
      _ = (do
          let base ← g.normalized
          base.oriented t) := by
        rw [hbase]
        rfl
  · rw [normalized_of_not_narrow hnarrow,
      normalized_of_not_narrow (mt himage.isCopy.narrow_iff.1 hnarrow)]
    rfl

theorem isLeast_columns (horigin : g.AtOrigin) (hne : g.coords ≠ []) :
    IsLeast g.columns 0 := by
  constructor
  · exact horigin.exists_left hne
  · rintro _ ⟨c, hc, rfl⟩
    exact (horigin.nonneg c hc).1

theorem isLeast_rows (horigin : g.AtOrigin) (hne : g.coords ≠ []) :
    IsLeast g.rows 0 := by
  constructor
  · exact horigin.exists_top hne
  · rintro _ ⟨c, hc, rfl⟩
    exact (horigin.nonneg c hc).2

/-- **Bringing a grid to the origin forgets where it was, and nothing else.**  Grids
that were moved give the same result or the same failure.  Grids that were turned or
reflected give what the grid at the origin gives when it is turned or reflected there.
The result has the states of the grid, moved by one displacement, lies at the origin and
is brought to itself. -/
theorem normalized_absorbs_motions (g : Grid) :
    (∀ d h, g.shifted d = .ok h → h.normalized = g.normalized) ∧
    (∀ t h, g.transformed t = .ok h → h.normalized = (do
      let base ← g.normalized
      let turned ← base.transformed t
      turned.normalized)) ∧
    ∀ h, g.normalized = .ok h →
      h.normalized = .ok h ∧
      (∃ d : Coord, ∀ c, h.state c = g.state (c + d)) ∧
      h.population = g.population ∧
      (h.coords ≠ [] → IsLeast h.columns 0 ∧ IsLeast h.rows 0) := by
  refine ⟨?_, ?_, ?_⟩
  · intro d h hshifted
    exact normalized_eq_of_isImage (isImage_of_shifted hshifted)
  · intro t h htransformed
    exact normalized_eq_oriented_of_isImage (isImage_of_transformed htransformed)
  · intro h hnormalized
    have himage := isImage_of_normalized hnormalized
    have horigin := atOrigin_of_normalized hnormalized
    refine ⟨?_, ?_, himage.population_eq, fun hne =>
      ⟨isLeast_columns horigin hne, isLeast_rows horigin hne⟩⟩
    · rw [normalized_eq_of_isImage himage, hnormalized]
    · obtain ⟨d, hd⟩ := himage.symm
      exact ⟨d, fun c => (hd c).symm⟩

/-- Two cells in different states, the first of them in the first column of the
span. -/
def edgePair : Grid :=
  .ofCells [(⟨Coord.least, 3⟩, 2), (⟨Coord.least + 1, 4⟩, 1)]

/-- The pair can be moved and turned by a quarter, and both are undone at the origin. -/
theorem edgePair_is_absorbed :
    let moved : Grid := .ofCells [(⟨-1, -1⟩, 2), (⟨0, 0⟩, 1)]
    let turned : Grid := .ofCells [(⟨-3, Coord.least⟩, 2), (⟨-4, Coord.least + 1⟩, 1)]
    let base : Grid := .ofCells [(⟨0, 0⟩, 2), (⟨1, 1⟩, 1)]
    edgePair.shifted ⟨Coord.greatest, -4⟩ = .ok moved ∧
      edgePair.transformed .rot90 = .ok turned ∧ edgePair.normalized = .ok base ∧
      moved.normalized = .ok base ∧ base.normalized = .ok base ∧
      turned.normalized = .ok (.ofCells [(⟨1, 0⟩, 2), (⟨0, 1⟩, 1)]) := by
  intro moved turned base
  have hshifted : edgePair.shifted ⟨Coord.greatest, -4⟩ = .ok moved := by decide +kernel
  have htransformed : edgePair.transformed .rot90 = .ok turned := by decide +kernel
  have hbase : edgePair.normalized = .ok base := by decide +kernel
  obtain ⟨hmoves, hturns, hresult⟩ := normalized_absorbs_motions edgePair
  refine ⟨hshifted, htransformed, hbase, ?_, (hresult _ hbase).1, ?_⟩
  · rw [hmoves _ _ hshifted, hbase]
  · rw [hturns _ _ htransformed, hbase]
    decide +kernel

end Grid

end Cellular
