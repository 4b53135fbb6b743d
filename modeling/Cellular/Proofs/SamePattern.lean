import Cellular.Proofs.Canonical
import Cellular.Proofs.Position

/-!
# Sameness of patterns

Two grids are taken for the same pattern when their canonical forms are one grid.
Each canonical form is a copy of its grid, so the answer yes is always right, for every
hash of the cells.  The answer no is right for grids whose smallest digest belongs to one
orientation only: where different orientations share it, two copies may have different
canonical forms.
-/

namespace Cellular

namespace Grid

variable {g h k : Grid} {c : Canonical} (hash : Coord → Digest)

/-- A canonical form is an orientation of its grid. -/
theorem faces_of_canonicalizeBy (hcanonical : g.canonicalizeBy hash = .ok c) :
    Faces g c.transform c.grid := by
  obtain ⟨facing, horiented⟩ := exists_orientedBy_of_bind hcanonical
  obtain ⟨before, t, after, -, hfirst, -⟩ := horiented.exists_first_smallest hash
  rw [hcanonical, Except.ok.injEq] at hfirst
  rw [hfirst]
  exact horiented.faces t

/-- There is a canonical form, or the grid exceeds the span. -/
theorem canonicalizeBy_cases (g : Grid) :
    (¬ g.ExceedsSpan ∧ ∃ c, g.canonicalizeBy hash = .ok c) ∨
      g.ExceedsSpan ∧ g.canonicalizeBy hash = .error .coordinateOverflow := by
  have hfails := failsOnExcess_canonicalizeBy hash g
  cases hcanonical : g.canonicalizeBy hash with
  | ok c =>
    refine Or.inl ⟨fun hexceeds => ?_, c, rfl⟩
    have herror := (hfails .coordinateOverflow).2 ⟨hexceeds, rfl⟩
    rw [hcanonical] at herror
    cases herror
  | error e =>
    obtain ⟨hexceeds, rfl⟩ := (hfails e).1 hcanonical
    exact Or.inr ⟨hexceeds, rfl⟩

/-! ## The answers -/

theorem samePatternBy_of_population_ne (hpopulation : g.population ≠ h.population) :
    g.samePatternBy hash h = .ok false := by
  rw [samePatternBy, if_pos hpopulation]

theorem samePatternBy_of_population_eq (hpopulation : g.population = h.population) :
    g.samePatternBy hash h = (do
      let a ← g.canonicalizeBy hash
      let b ← h.canonicalizeBy hash
      return decide (a.grid = b.grid)) := by
  rw [samePatternBy, if_neg (not_not.2 hpopulation)]

/-- Grids with one canonical form are copies of each other. -/
theorem congruent_of_canonicalizeBy {a b : Canonical} (ha : g.canonicalizeBy hash = .ok a)
    (hb : h.canonicalizeBy hash = .ok b) (hsame : a.grid = b.grid) : Congruent g h := by
  have hg : Congruent g a.grid := ⟨_, (faces_of_canonicalizeBy hash ha).isCopy⟩
  have hh : Congruent h b.grid := ⟨_, (faces_of_canonicalizeBy hash hb).isCopy⟩
  rw [← hsame] at hh
  exact hg.trans hh.symm

theorem Congruent.population_eq (hcongruent : Congruent g h) :
    g.population = h.population := by
  obtain ⟨t, hcopy⟩ := hcongruent
  exact hcopy.population_eq.symm

/-- The answer is yes exactly for grids with one canonical form: the number of cells
only makes the answer no quicker. -/
theorem samePatternBy_eq_true_iff :
    g.samePatternBy hash h = .ok true ↔
      ∃ a b, g.canonicalizeBy hash = .ok a ∧ h.canonicalizeBy hash = .ok b ∧
        a.grid = b.grid := by
  constructor
  · intro htrue
    by_cases hpopulation : g.population = h.population
    · rw [samePatternBy_of_population_eq hash hpopulation] at htrue
      cases ha : g.canonicalizeBy hash with
      | error e =>
        rw [ha] at htrue
        cases htrue
      | ok a =>
        cases hb : h.canonicalizeBy hash with
        | error e =>
          rw [ha, hb] at htrue
          cases htrue
        | ok b =>
          rw [ha, hb] at htrue
          exact ⟨a, b, rfl, rfl, of_decide_eq_true (Except.ok.inj htrue)⟩
    · rw [samePatternBy_of_population_ne hash hpopulation] at htrue
      cases htrue
  · rintro ⟨a, b, ha, hb, hsame⟩
    have hpopulation := (congruent_of_canonicalizeBy hash ha hb hsame).population_eq
    rw [samePatternBy_of_population_eq hash hpopulation, ha, hb]
    exact congrArg Except.ok (decide_eq_true hsame)

/-- No answer is given exactly for grids with the same number of cells of which one
exceeds the span. -/
theorem samePatternBy_eq_error_iff {e : GridError} :
    g.samePatternBy hash h = .error e ↔
      g.population = h.population ∧ (g.ExceedsSpan ∨ h.ExceedsSpan) ∧
        e = .coordinateOverflow := by
  by_cases hpopulation : g.population = h.population
  · rw [samePatternBy_of_population_eq hash hpopulation]
    rcases canonicalizeBy_cases hash g with ⟨hg, a, ha⟩ | ⟨hg, ha⟩
    · rcases canonicalizeBy_cases hash h with ⟨hh, b, hb⟩ | ⟨hh, hb⟩
      · simp [ha, hb, hg, hh, bind, Except.bind, pure, Except.pure]
      · simp [ha, hb, hg, hh, hpopulation, bind, Except.bind, eq_comm]
    · simp [ha, hg, hpopulation, bind, Except.bind, eq_comm]
  · simp [samePatternBy_of_population_ne hash hpopulation, hpopulation]

theorem samePatternBy_comm (g h : Grid) :
    g.samePatternBy hash h = h.samePatternBy hash g := by
  by_cases hpopulation : g.population = h.population
  · rw [samePatternBy_of_population_eq hash hpopulation,
      samePatternBy_of_population_eq hash hpopulation.symm]
    rcases canonicalizeBy_cases hash g with ⟨-, a, ha⟩ | ⟨-, ha⟩ <;>
      rcases canonicalizeBy_cases hash h with ⟨-, b, hb⟩ | ⟨-, hb⟩ <;>
      rw [ha, hb]
    · exact congrArg Except.ok (decide_eq_decide.2 eq_comm)
    all_goals rfl
  · rw [samePatternBy_of_population_ne hash hpopulation,
      samePatternBy_of_population_ne hash (Ne.symm hpopulation)]

/-! ## The relation -/

/-- Copies are recognised if the smallest digest belongs to one orientation. -/
theorem samePatternBy_of_congruent {orientations : List (Transform × Grid)}
    {digests : List Digest} (horientations : g.orientations = .ok orientations)
    (hdigests : g.orientationDigestsBy hash = .ok digests)
    (hties : TiesAgree orientations digests) (hcongruent : Congruent g h) :
    g.samePatternBy hash h = .ok true := by
  obtain ⟨t, hcopy⟩ := hcongruent
  rcases orientations_of_isCopy hcopy with ⟨facing, hg, hh⟩ | ⟨e, herror, -⟩
  · have hagree := digestsAgree_of_orientedBy hash hg hh
    obtain ⟨a, b, ha, hb, hsame⟩ := hagree.canonicalGrid horientations hdigests hties
    exact (samePatternBy_eq_true_iff hash).2 ⟨a, b, ha, hb, hsame.symm⟩
  · rw [horientations] at herror
    cases herror

/-- A grid that can be brought to the origin. -/
def Positionable : Type :=
  {g : Grid // ∃ base, g.normalized = .ok base}

/-- The answer yes as a relation on the grids that can be brought to the origin. -/
def SameBy (g h : Positionable) : Prop :=
  g.1.samePatternBy hash h.1 = .ok true

theorem equivalence_sameBy : Equivalence (SameBy hash) where
  refl g := by
    obtain ⟨g, base, hbase⟩ := g
    rcases canonicalizeBy_cases hash g with ⟨-, c, hc⟩ | ⟨hexceeds, -⟩
    · exact (samePatternBy_eq_true_iff hash).2 ⟨c, c, hc, hc, rfl⟩
    · have herror := (failsOnExcess_normalized g _).2 ⟨hexceeds, rfl⟩
      rw [hbase] at herror
      cases herror
  symm hgh := by
    rwa [SameBy, samePatternBy_comm]
  trans hgh hhk := by
    obtain ⟨a, b, ha, hb, hab⟩ := (samePatternBy_eq_true_iff hash).1 hgh
    obtain ⟨b', c, hb', hc, hbc⟩ := (samePatternBy_eq_true_iff hash).1 hhk
    rw [hb, Except.ok.injEq] at hb'
    subst hb'
    exact (samePatternBy_eq_true_iff hash).2 ⟨a, c, ha, hc, hab.trans hbc⟩

/-- **Patterns are compared up to orientation and position.**  For every hash of the
cells, an answer yes means that a symmetry and a displacement take the live cells of one
grid to those of the other.  Such grids are recognised if all orientations with the
smallest digest are one grid.  The order of the two grids makes no difference, the grids
that can be brought to the origin fall into classes, and no answer is given exactly for
grids with the same number of cells of which one exceeds the span. -/
theorem samePatternBy_decides_congruence (hash : Coord → Digest) :
    (∀ g h : Grid, g.samePatternBy hash h = .ok true → Congruent g h) ∧
    (∀ (g h : Grid) orientations digests, g.orientations = .ok orientations →
      g.orientationDigestsBy hash = .ok digests → TiesAgree orientations digests →
      Congruent g h → g.samePatternBy hash h = .ok true) ∧
    (∀ g h : Grid, g.samePatternBy hash h = h.samePatternBy hash g) ∧
    Equivalence (SameBy hash) ∧
    ∀ (g h : Grid) e, g.samePatternBy hash h = .error e ↔
      g.population = h.population ∧ (g.ExceedsSpan ∨ h.ExceedsSpan) ∧
        e = .coordinateOverflow := by
  refine ⟨?_, ?_, samePatternBy_comm hash, equivalence_sameBy hash, ?_⟩
  · intro g h htrue
    obtain ⟨a, b, ha, hb, hsame⟩ := (samePatternBy_eq_true_iff hash).1 htrue
    exact congruent_of_canonicalizeBy hash ha hb hsame
  · intro g h orientations digests horientations hdigests hties hcongruent
    exact samePatternBy_of_congruent hash horientations hdigests hties hcongruent
  · intro g h e
    exact samePatternBy_eq_error_iff hash

/-- The hook, reflected in the y axis. -/
def reflectedHook : Grid :=
  .ofCells [(⟨-7, 0⟩, 2), (⟨-7, 1⟩, 1), (⟨-6, 0⟩, 1), (⟨-5, 0⟩, 1)]

/-- A hash that tells all orientations of the hook apart recognises its reflection, in
either order.  A hash that is blind for rows gives its smallest digest to a rotation of
each of the two, and does not recognise it.  A pair of cells that exceeds the span cannot
be compared with other pairs, but is told from the hook by its number of cells. -/
theorem reflectedHook_is_recognised :
    hook.samePatternBy slope reflectedHook = .ok true ∧
      reflectedHook.samePatternBy slope hook = .ok true ∧
      Congruent hook reflectedHook ∧
      hook.samePatternBy column reflectedHook = .ok false ∧
      (cornerPair (-2)).samePatternBy slope (cornerPair (-1)) =
        .error .coordinateOverflow ∧
      hook.samePatternBy slope (cornerPair (-1)) = .ok false := by
  obtain ⟨-, hcomplete, hcomm, -, herror⟩ := samePatternBy_decides_congruence slope
  have hreflected : hook.transformed .flipX = .ok reflectedHook := by decide +kernel
  have hcongruent : Congruent hook reflectedHook := ⟨_, isCopy_of_transformed hreflected⟩
  have hdigests : hook.orientationDigestsBy slope = .ok [15, 31, 21, 17, 21, 25, 27, 11] := by
    decide +kernel
  have hsame := hcomplete hook reflectedHook _ _ rfl hdigests (by decide +kernel) hcongruent
  refine ⟨hsame, (hcomm _ _).symm.trans hsame, hcongruent, by decide +kernel, ?_, ?_⟩
  · exact (herror _ _ _).2 ⟨by decide +kernel, by decide +kernel, rfl⟩
  · decide +kernel

end Grid

end Cellular
