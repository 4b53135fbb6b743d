import Cellular.Proofs.Apgcode
import Cellular.Proofs.Orientation

/-!
# Codes name patterns

The codes of the eight orientations of a pattern are put in order, and the first
one names the pattern: it is the same for every copy of the pattern, and it
describes one of the copies.
-/

namespace Cellular

namespace Apgcode

section Order

variable {a b c : Apgcode}

theorem Before.irrefl (a : Apgcode) : ¬ a.Before a := by
  rintro (hlength | ⟨-, htext⟩)
  · exact Nat.lt_irrefl _ hlength
  · exact List.lt_irrefl a.text htext

theorem Before.trans (hab : a.Before b) (hbc : b.Before c) : a.Before c := by
  rcases hab with hab | ⟨hab, htextab⟩
  · rcases hbc with hbc | ⟨hbc, -⟩
    · exact Or.inl (Nat.lt_trans hab hbc)
    · exact Or.inl (hbc ▸ hab)
  · rcases hbc with hbc | ⟨hbc, htextbc⟩
    · exact Or.inl (hab ▸ hbc)
    · exact Or.inr ⟨hab.trans hbc, List.lt_trans htextab htextbc⟩

theorem before_of_not_before (h : ¬ a.Before b) (hne : a ≠ b) : b.Before a := by
  rw [Before, not_or, not_and] at h
  rcases Nat.lt_or_eq_of_le (Nat.le_of_not_lt h.1) with hlength | hlength
  · exact Or.inl hlength
  · refine Or.inr ⟨hlength, Decidable.byContradiction fun htext => hne (text_inj.1 ?_)⟩
    exact List.le_antisymm (List.not_lt.1 htext) (List.not_lt.1 (h.2 hlength.symm))

theorem not_before_trans (hab : ¬ b.Before a) (hbc : ¬ c.Before b) : ¬ c.Before a := by
  intro hca
  by_cases heq : b = a
  · exact hbc (heq ▸ hca)
  · exact hbc (hca.trans (before_of_not_before hab heq))

theorem earlier_not_after_left (a b : Apgcode) : ¬ a.Before (earlier a b) := by
  rw [earlier]
  split
  · rename_i hba
    exact fun hab => Before.irrefl a (hab.trans hba)
  · exact Before.irrefl a

theorem earlier_not_after_right (a b : Apgcode) : ¬ b.Before (earlier a b) := by
  rw [earlier]
  split
  · exact Before.irrefl b
  · rename_i hba
    exact hba

theorem earlier_eq (a b : Apgcode) : earlier a b = a ∨ earlier a b = b := by
  rw [earlier]
  split
  · exact Or.inr rfl
  · exact Or.inl rfl

end Order

open Grid

variable {g h m : Grid} {t : Transform} {code : Apgcode} {facing : Transform → Grid}

/-- A grid that can be brought to the origin has a code. -/
theorem exists_atOrigin (hnormalized : g.normalized = .ok h) :
    ∃ code, atOrigin h = .ok code := by
  rw [atOrigin]
  split
  · exact ⟨blank, rfl⟩
  · rename_i hempty
    cases hcoords : h.coords with
    | nil => exact absurd (List.isEmpty_iff.2 (List.map_eq_nil_iff.1 hcoords)) hempty
    | cons c rest =>
      rcases boundingBox_of_cons hcoords with ⟨-, box, hbox⟩ | ⟨hwide, -⟩
      · rw [hbox]
        exact ⟨_, rfl⟩
      · exact absurd (narrow_of_normalized hnormalized) hwide

/-- An orientation has a code, which describes it. -/
theorem exists_code_of_faces (hface : Faces g t h) :
    ∃ code, ofGrid h = .ok code ∧ code.toGrid = h := by
  obtain ⟨code, hcode⟩ := exists_atOrigin hface.normalized_eq
  refine ⟨code, ?_, ?_⟩
  · rw [ofGrid_eq_atOrigin hface.normalized_eq, hcode]
  · rw [toGrid_of_atOrigin hface.normalized_eq hcode, hface.presence_eq]

theorem ofGrids_eq {codes : Transform → Apgcode}
    (hcodes : ∀ t, ofGrid (facing t) = .ok (codes t)) (ts : List Transform) :
    ofGrids (ts.map fun t => (t, facing t)) = .ok (ts.map codes) := by
  induction ts with
  | nil => rfl
  | cons t rest ih =>
    rw [List.map_cons, ofGrids, hcodes, ih]
    rfl

/-- The first code is that of an orientation, and none of the others is before
it. -/
theorem exists_minimal (horiented : OrientedBy g facing) :
    ∃ t code, minimal g = .ok code ∧ ofGrid (facing t) = .ok code ∧
      ∀ u other, ofGrid (facing u) = .ok other → ¬ other.Before code := by
  have hcodes := fun t => exists_code_of_faces (horiented.faces t)
  choose codes hcodes _ using hcodes
  have hminimal : minimal g = .ok ((orientationOrder.tail.map codes).foldl earlier
      (codes .identity)) := by
    rw [minimal, horiented.orientations_eq]
    simp only [bind, Except.bind]
    rw [ofGrids_eq hcodes]
    rfl
  obtain ⟨t, ht, hfirst⟩ := exists_fold_orientations earlier_eq
    (fun a b => ¬ b.Before a) Before.irrefl not_before_trans earlier_not_after_left
    earlier_not_after_right codes
  refine ⟨t, codes t, ?_, hcodes t, ?_⟩
  · rw [hminimal, ht]
  · intro u other hother
    rw [hcodes, Except.ok.injEq] at hother
    rw [← hother]
    exact hfirst u

/-- The first code of a copy of a pattern is the first code of the pattern. -/
theorem minimal_eq_of_congruent (hcongruent : Congruent g m) : minimal m = minimal g := by
  obtain ⟨t, hcopy⟩ := hcongruent
  rcases orientations_of_isCopy hcopy with ⟨facing, hg, hm⟩ | ⟨e, hg, hm⟩
  · obtain ⟨u, code, hcode, hfacing, hfirst⟩ := exists_minimal hg
    obtain ⟨v, other, hother, hotherFacing, hotherFirst⟩ := exists_minimal hm
    have hnotBefore : ¬ other.Before code := hfirst _ other hotherFacing
    have hnotAfter : ¬ code.Before other := by
      refine hotherFirst (t.inverse.andThen u) code ?_
      rw [Transform.andThen_inverse_andThen]
      exact hfacing
    rw [hcode, hother, Except.ok.injEq]
    exact Decidable.byContradiction fun hne =>
      hnotAfter (before_of_not_before hnotBefore hne)
  · rw [minimal, minimal, hg, hm]

/-- A code that names a pattern describes one of its orientations. -/
theorem exists_faces_of_minimal (hcode : minimal g = .ok code) :
    ∃ t, Faces g t code.toGrid := by
  rcases orientations_of_isCopy (IsCopy.refl g) with ⟨facing, hg, -⟩ | ⟨e, hg, -⟩
  · obtain ⟨t, first, hfirst, hfacing, -⟩ := exists_minimal hg
    rw [hcode, Except.ok.injEq] at hfirst
    obtain ⟨other, hother, hgrid⟩ := exists_code_of_faces (hg.faces t)
    rw [hfacing, Except.ok.injEq] at hother
    refine ⟨t, ?_⟩
    rw [hfirst, hother, hgrid]
    exact hg.faces t
  · rw [minimal, hg] at hcode
    cases hcode

/-- The first code is a complete invariant of patterns: it is the same for two
grids exactly when a symmetry and a displacement take the live cells of one to
those of the other.  It reads back as a copy of the pattern, whose first code it
is. -/
theorem minimal_text_eq_iff_congruent (hcode : minimal g = .ok code) :
    (∀ {other otherCode}, minimal other = .ok otherCode →
      (otherCode.text = code.text ↔ Congruent g other)) ∧
    ∃ pattern, decode (String.ofList code.text) = .ok pattern ∧
      Congruent g pattern ∧ minimal pattern = .ok code := by
  obtain ⟨t, hface⟩ := exists_faces_of_minimal hcode
  have hpattern : Congruent g code.toGrid := ⟨t, hface.isCopy⟩
  refine ⟨?_, code.toGrid, decode_text code, hpattern, ?_⟩
  · intro other otherCode hother
    rw [text_inj]
    constructor
    · rintro rfl
      obtain ⟨u, hotherFace⟩ := exists_faces_of_minimal hother
      have hotherPattern : Congruent other otherCode.toGrid := ⟨u, hotherFace.isCopy⟩
      exact hpattern.trans hotherPattern.symm
    · intro hcongruent
      rw [minimal_eq_of_congruent hcongruent, hcode, Except.ok.injEq] at hother
      exact hother.symm
  · rw [minimal_eq_of_congruent hpattern, hcode]

/-- A glider. -/
def glider : Grid :=
  .ofCoords [⟨0, 2⟩, ⟨1, 0⟩, ⟨1, 2⟩, ⟨2, 1⟩, ⟨2, 2⟩]

/-- The reflection of the glider in the y axis, far from it and in several
states. -/
def mirroredGlider : Grid :=
  .ofCells [(⟨-30, 9⟩, 2), (⟨-31, 7⟩, 3), (⟨-31, 9⟩, 2), (⟨-32, 8⟩, 1), (⟨-32, 9⟩, 1)]

/-- The glider one generation later, which is another pattern. -/
def nextGlider : Grid :=
  .ofCoords [⟨0, 0⟩, ⟨1, 1⟩, ⟨1, 2⟩, ⟨2, 0⟩, ⟨2, 1⟩]

theorem glider_is_named :
    (minimal glider).map text = .ok "153".toList ∧
      Congruent glider mirroredGlider ∧ ¬ Congruent glider nextGlider ∧
      ∃ pattern, decode "153" = .ok pattern ∧ Congruent glider pattern ∧
        minimal pattern = minimal glider := by
  let code := ofTokens [.column 1, .column 5, .column 3]
  have hglider : minimal glider = .ok code := by decide +kernel
  have hmirrored : minimal mirroredGlider = .ok code := by decide +kernel
  have hnext : minimal nextGlider = .ok (ofTokens [.column 1, .column 6, .column 3]) := by
    decide +kernel
  obtain ⟨hnamed, pattern, hdecode, hpattern, hminimal⟩ :=
    minimal_text_eq_iff_congruent hglider
  refine ⟨?_, (hnamed hmirrored).1 rfl, ?_, pattern, hdecode, hpattern, ?_⟩
  · rw [hglider]
    rfl
  · intro hcongruent
    have htext := (hnamed hnext).2 hcongruent
    revert htext
    decide
  · rw [hminimal, hglider]

end Apgcode

end Cellular
