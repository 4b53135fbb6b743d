import Cellular.Pattern.Orientation
import Cellular.Proofs.Grid

/-!
# Copies of a grid

A symmetry of the square followed by a displacement takes a grid to a copy of it.
A grid whose points are not too far apart has exactly one copy at the origin for
each of the eight symmetries, and these are the orientations it is listed in; the
copies of a copy are the same grids, in another order.
-/

namespace Cellular

namespace Transform

theorem apply_add (t : Transform) (c d : Coord) :
    t.apply (c + d) = t.apply c + t.apply d := by
  rw [Coord.ext_iff]
  cases t <;> simp only [apply, Coord.add_x, Coord.add_y, Int.neg_add, and_self]

/-- Two motions in turn are one symmetry and one displacement. -/
theorem apply_apply_add (t u : Transform) (b d e : Coord) :
    u.apply (t.apply b + d) + e = (t.andThen u).apply b + (u.apply d + e) := by
  rw [apply_add, apply_andThen, Coord.add_assoc]

theorem inverse_andThen (t : Transform) : t.inverse.andThen t = identity := by
  cases t <;> rfl

theorem andThen_inverse (t : Transform) : t.andThen t.inverse = identity := by
  cases t <;> rfl

theorem identity_andThen (t : Transform) : identity.andThen t = t := by
  cases t <;> rfl

theorem andThen_identity (t : Transform) : t.andThen identity = t := by
  cases t <;> rfl

theorem andThen_inverse_andThen (t u : Transform) :
    t.andThen (t.inverse.andThen u) = u := by
  cases t <;> cases u <;> rfl

theorem andThen_andThen_inverse (t u : Transform) :
    (t.andThen u).andThen u.inverse = t := by
  cases t <;> cases u <;> rfl

theorem mem_orientationOrder (t : Transform) : t ∈ Grid.orientationOrder := by
  cases t <;> decide

/-- One symmetry followed by each of the eight is each of the eight. -/
theorem perm_map_andThen (t : Transform) :
    (Grid.orientationOrder.map t.andThen).Perm Grid.orientationOrder := by
  cases t <;> decide

/-- Each of the eight followed by one symmetry is each of the eight. -/
theorem perm_map_andThen_right (u : Transform) :
    (Grid.orientationOrder.map fun t => t.andThen u).Perm Grid.orientationOrder := by
  cases u <;> decide

end Transform

namespace Grid

/-- The live cells of `h` are those of `g`, moved by the symmetry `t` and then by
a displacement. -/
def IsCopy (t : Transform) (g h : Grid) : Prop :=
  ∃ d : Coord, ∀ c, c ∈ h.coords ↔ ∃ b ∈ g.coords, t.apply b + d = c

/-- Some symmetry and some displacement take the live cells of `g` to those of
`h`. -/
def Congruent (g h : Grid) : Prop :=
  ∃ t, IsCopy t g h

variable {g h k m : Grid} {t u : Transform}

namespace IsCopy

theorem refl (g : Grid) : IsCopy .identity g g := by
  refine ⟨⟨0, 0⟩, fun c => ?_⟩
  simp only [Transform.apply, Coord.add_zero, exists_eq_right]

theorem trans (hgh : IsCopy t g h) (hhk : IsCopy u h k) :
    IsCopy (t.andThen u) g k := by
  obtain ⟨d, hd⟩ := hgh
  obtain ⟨e, he⟩ := hhk
  refine ⟨u.apply d + e, fun c => ?_⟩
  rw [he]
  constructor
  · rintro ⟨_, hmem, rfl⟩
    obtain ⟨b, hb, rfl⟩ := (hd _).1 hmem
    exact ⟨b, hb, (t.apply_apply_add u b d e).symm⟩
  · rintro ⟨b, hb, rfl⟩
    exact ⟨t.apply b + d, (hd _).2 ⟨b, hb, rfl⟩, t.apply_apply_add u b d e⟩

theorem symm (hcopy : IsCopy t g h) : IsCopy t.inverse h g := by
  obtain ⟨d, hd⟩ := hcopy
  have hback : ∀ b, t.inverse.apply (t.apply b + d) +
      (⟨0, 0⟩ - t.inverse.apply d) = b := by
    intro b
    rw [Transform.apply_add, Transform.apply_inverse, Coord.add_zero_sub,
      Coord.add_sub_cancel]
  refine ⟨⟨0, 0⟩ - t.inverse.apply d, fun c => ?_⟩
  constructor
  · intro hc
    exact ⟨t.apply c + d, (hd _).2 ⟨c, hc, rfl⟩, hback c⟩
  · rintro ⟨_, hmem, rfl⟩
    obtain ⟨b, hb, rfl⟩ := (hd _).1 hmem
    rwa [hback]

end IsCopy

theorem Congruent.symm (h : Congruent g m) : Congruent m g := by
  obtain ⟨t, hcopy⟩ := h
  exact ⟨t.inverse, hcopy.symm⟩

theorem Congruent.trans (h : Congruent g m) (h' : Congruent m k) : Congruent g k := by
  obtain ⟨t, hcopy⟩ := h
  obtain ⟨u, hcopy'⟩ := h'
  exact ⟨t.andThen u, hcopy.trans hcopy'⟩

/-! ## The operations that make copies -/

theorem isCopy_of_remap {f : Coord → Coord} (d : Coord)
    (hf : ∀ c, f c = t.apply c + d) (hremap : g.remap f = .ok h) : IsCopy t g h := by
  refine ⟨d, fun c => ?_⟩
  rw [mem_coords_remap_iff hremap]
  simp only [hf]

theorem isCopy_of_transformed (htransformed : g.transformed t = .ok h) :
    IsCopy t g h :=
  isCopy_of_remap ⟨0, 0⟩ (fun _ => (Coord.add_zero _).symm) htransformed

theorem isCopy_of_shifted {d : Coord} (hshifted : g.shifted d = .ok h) :
    IsCopy .identity g h :=
  isCopy_of_remap d (fun _ => rfl) hshifted

theorem isCopy_presence (g : Grid) : IsCopy .identity g g.presence := by
  rw [IsCopy, coords_presence]
  exact IsCopy.refl g

theorem isCopy_of_normalized (hnormalized : g.normalized = .ok h) :
    IsCopy .identity g h := by
  rcases normalized_eq_ok hnormalized with ⟨hnil, rfl⟩ | ⟨box, -, hremap⟩
  · refine ⟨⟨0, 0⟩, fun c => ?_⟩
    rw [hnil]
    simp [coords, empty]
  · exact isCopy_of_remap (⟨0, 0⟩ - box.corner)
      (fun c => (Coord.add_zero_sub c box.corner).symm) hremap

/-! ## Grids that can be brought to the origin -/

/-- No two points of the grid are further apart than the span allows. -/
def Narrow (g : Grid) : Prop :=
  ∀ c ∈ g.coords, ∀ d ∈ g.coords,
    c.x - d.x < Coord.greatest ∧ c.y - d.y < Coord.greatest

instance (g : Grid) : Decidable g.Narrow :=
  inferInstanceAs (Decidable (∀ c ∈ g.coords, ∀ d ∈ g.coords, _ ∧ _))

/-- Copies are as wide and as high as each other, or the other way round. -/
theorem IsCopy.narrow (hcopy : IsCopy t g h) (hnarrow : g.Narrow) : h.Narrow := by
  obtain ⟨d, hd⟩ := hcopy
  intro c hc e he
  obtain ⟨b, hb, rfl⟩ := (hd c).1 hc
  obtain ⟨a, ha, rfl⟩ := (hd e).1 he
  have hforward := hnarrow b hb a ha
  have hbackward := hnarrow a ha b hb
  cases t <;> simp only [Transform.apply, Coord.add_x, Coord.add_y] <;> omega

theorem IsCopy.narrow_iff (hcopy : IsCopy t g h) : h.Narrow ↔ g.Narrow :=
  ⟨hcopy.symm.narrow, hcopy.narrow⟩

theorem boundingBox_of_cons {c : Coord} {rest : List Coord}
    (hcoords : g.coords = c :: rest) :
    (g.Narrow ∧ ∃ box, g.boundingBox = .ok box) ∨
      (¬ g.Narrow ∧ g.boundingBox = .error .coordinateOverflow) := by
  have hiff := BoundingBox.around_le_greatest_iff c rest
  rw [boundingBox, Narrow, hcoords, BoundingBox.ofCoords_eq, ← hiff]
  split
  · rename_i hle
    exact Or.inl ⟨hle, _, rfl⟩
  · rename_i hle
    exact Or.inr ⟨hle, rfl⟩

theorem exists_normalized (hnarrow : g.Narrow) : ∃ h, g.normalized = .ok h := by
  cases hcoords : g.coords with
  | nil =>
    refine ⟨empty, ?_⟩
    rw [normalized, boundingBox, hcoords]
    rfl
  | cons c rest =>
    rcases boundingBox_of_cons hcoords with ⟨-, box, hbox⟩ | ⟨hwide, -⟩
    · have htight := BoundingBox.isTight_of_ofCoords hbox
      have hfits : ∀ d ∈ g.coords, (d - box.corner).Fits := by
        intro d hd
        obtain ⟨left, hleft, hx⟩ := htight.exists_left
        obtain ⟨top, htop, hy⟩ := htight.exists_top
        have hxle := htight.left_le d hd
        have hyle := htight.top_le d hd
        have hxlt := (hnarrow d hd left hleft).1
        have hylt := (hnarrow d hd top htop).2
        simp only [Coord.Fits, Coord.sub_x, Coord.sub_y, BoundingBox.corner, Coord.least,
          Coord.greatest] at *
        omega
      refine ⟨ofCells (g.cells.map fun cell => (cell.1 - box.corner, cell.2)), ?_⟩
      rw [normalized, hbox]
      exact remap_eq_ok_iff.2 ⟨hfits, rfl⟩
    · exact absurd hnarrow hwide

theorem normalized_of_not_narrow (hwide : ¬ g.Narrow) :
    g.normalized = .error .coordinateOverflow := by
  cases hcoords : g.coords with
  | nil =>
    refine absurd (fun c hc => ?_) hwide
    rw [hcoords] at hc
    cases hc
  | cons c rest =>
    rcases boundingBox_of_cons hcoords with ⟨hnarrow, -⟩ | ⟨-, hbox⟩
    · exact absurd hnarrow hwide
    · rw [normalized, hbox]

/-- A grid that was brought to the origin was not too large, and is not. -/
theorem narrow_of_normalized (hnormalized : g.normalized = .ok h) : h.Narrow := by
  refine Decidable.byContradiction fun hwide => ?_
  have herror := normalized_of_not_narrow (mt (isCopy_of_normalized hnormalized).narrow hwide)
  rw [hnormalized] at herror
  cases herror

/-! ## Copies at the origin -/

/-- A displacement from a grid at the origin to one on its right and below it
points right and down. -/
theorem nonneg_of_atOrigin {d : Coord} (hg : g.AtOrigin) (hh : h.AtOrigin)
    (hne : g.coords ≠ []) (hd : ∀ b ∈ g.coords, b + d ∈ h.coords) :
    0 ≤ d.x ∧ 0 ≤ d.y := by
  obtain ⟨left, hleft, hx⟩ := hg.exists_left hne
  obtain ⟨top, htop, hy⟩ := hg.exists_top hne
  have hxnonneg := (hh.nonneg _ (hd left hleft)).1
  have hynonneg := (hh.nonneg _ (hd top htop)).2
  simp only [Coord.add_x, Coord.add_y] at hxnonneg hynonneg
  omega

/-- A displacement between two grids at the origin moves nothing. -/
theorem add_eq_self_of_atOrigin {d : Coord} (hg : g.AtOrigin) (hh : h.AtOrigin)
    (hne : g.coords ≠ []) (hd : ∀ b, b + d ∈ h.coords ↔ b ∈ g.coords) (b : Coord) :
    b + d = b := by
  have hback : ∀ c ∈ h.coords, c + (⟨0, 0⟩ - d) ∈ g.coords := by
    intro c hc
    rwa [← hd, Coord.add_zero_sub, Coord.sub_add_cancel]
  obtain ⟨first, hfirst⟩ := List.exists_mem_of_ne_nil _ hne
  have hright := nonneg_of_atOrigin hg hh hne fun b hb => (hd b).2 hb
  have hleft := nonneg_of_atOrigin hh hg (List.ne_nil_of_mem ((hd first).2 hfirst)) hback
  rw [Coord.ext_iff]
  simp only [Coord.add_x, Coord.add_y, Coord.sub_x, Coord.sub_y] at hleft ⊢
  omega

/-- At the origin there is room for one grid of its shape. -/
theorem coords_eq_of_isCopy_identity (hcopy : IsCopy .identity g h) (hg : g.AtOrigin)
    (hh : h.AtOrigin) : h.coords = g.coords := by
  obtain ⟨d, hd⟩ := hcopy
  have hmoved : ∀ b, b + d ∈ h.coords ↔ b ∈ g.coords := by
    intro b
    rw [hd]
    constructor
    · rintro ⟨a, ha, heq⟩
      rwa [← Coord.add_sub_cancel b d, ← heq, Transform.apply, Coord.add_sub_cancel]
    · intro hb
      exact ⟨b, hb, rfl⟩
  apply coords_eq_of_mem_iff
  intro c
  by_cases hne : g.coords = []
  · rw [hd, hne]
    simp
  · rw [← hmoved, add_eq_self_of_atOrigin hg hh hne hmoved]

/-- Grids with all live cells in state 1 are told apart by their points. -/
theorem eq_of_coords_eq (hg : g.presence = g) (hh : h.presence = h)
    (hcoords : g.coords = h.coords) : g = h := by
  rw [← hg, ← hh, presence, presence, hcoords]

theorem presence_eq_of_remap {f : Coord → Coord} (hg : g.presence = g)
    (hremap : g.remap f = .ok h) : h.presence = h := by
  have hsame := presence_remap hremap
  rw [hg, hremap, Except.ok.injEq] at hsame
  exact hsame.symm

theorem presence_eq_of_normalized (hg : g.presence = g)
    (hnormalized : g.normalized = .ok h) : h.presence = h := by
  have hsame := presence_normalized hnormalized
  rw [hg, hnormalized, Except.ok.injEq] at hsame
  exact hsame.symm

theorem presence_presence (g : Grid) : g.presence.presence = g.presence := by
  rw [presence, coords_presence, presence]

/-- `h` is the copy of `g` in the orientation `t` that lies at the origin and has
its live cells in state 1. -/
structure Faces (g : Grid) (t : Transform) (h : Grid) : Prop where
  isCopy : IsCopy t g h
  normalized_eq : h.normalized = .ok h
  presence_eq : h.presence = h

namespace Faces

theorem atOrigin (hface : Faces g t h) : h.AtOrigin :=
  atOrigin_of_normalized hface.normalized_eq

/-- An orientation of a copy is an orientation of the grid itself. -/
theorem of_isCopy (hcopy : IsCopy t g m) (hface : Faces m u h) :
    Faces g (t.andThen u) h :=
  ⟨hcopy.trans hface.isCopy, hface.normalized_eq, hface.presence_eq⟩

theorem unique (hh : Faces g t h) (hk : Faces g t k) : h = k := by
  have hcopy := hh.isCopy.symm.trans hk.isCopy
  rw [Transform.inverse_andThen] at hcopy
  have hcoords := coords_eq_of_isCopy_identity hcopy hh.atOrigin hk.atOrigin
  exact eq_of_coords_eq hh.presence_eq hk.presence_eq hcoords.symm

end Faces

/-- Bringing a grid to the origin gives one of its orientations. -/
theorem faces_of_normalized (hg : g.presence = g) (hcopy : IsCopy t m g)
    (hnormalized : g.normalized = .ok h) : Faces m t h := by
  have hmoved := isCopy_of_normalized hnormalized
  have hpresence := presence_eq_of_normalized hg hnormalized
  obtain ⟨k, hk⟩ := exists_normalized (narrow_of_normalized hnormalized)
  have hcoords := coords_eq_of_isCopy_identity (isCopy_of_normalized hk)
    (atOrigin_of_normalized hnormalized) (atOrigin_of_normalized hk)
  have hkh : k = h :=
    eq_of_coords_eq (presence_eq_of_normalized hpresence hk) hpresence hcoords
  subst hkh
  have hwhole := hcopy.trans hmoved
  rw [Transform.andThen_identity] at hwhole
  exact ⟨hwhole, hk, hpresence⟩

end Grid

end Cellular
