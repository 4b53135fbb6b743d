import Cellular.Proofs.Orientation

/-!
# Canonical forms

The canonical form of a pattern is the first of its orientations with the smallest
digest.  Its own orientations are those of the pattern, in another order that begins
with the canonical form itself, so that it is its own canonical form.  Nothing is asked
of the hash of the cells: different orientations may share a digest.
-/

namespace Cellular

namespace Grid

variable {g : Grid} {c : Canonical} {facing : Transform → Grid}
variable (hash : Coord → Digest)

/-- A grid that has the smallest digest in its first orientation is its canonical
form. -/
theorem OrientedBy.canonicalizeBy_eq_of_identity (horiented : OrientedBy g facing)
    (hleast : ∀ t, Digest.sumOver hash (facing .identity).coords ≤
      Digest.sumOver hash (facing t).coords) :
    g.canonicalizeBy hash = .ok ⟨.identity, facing .identity,
      Digest.sumOver hash (facing .identity).coords⟩ := by
  obtain ⟨before, t, after, horder, hcanonical, hbefore, -⟩ :=
    horiented.exists_first_smallest hash
  cases before with
  | nil =>
    obtain ⟨rfl, -⟩ := List.cons.inj horder
    exact hcanonical
  | cons first before =>
    obtain ⟨rfl, -⟩ := List.cons.inj horder
    have hlarger := hbefore .identity List.mem_cons_self
    exact absurd (hleast t) (Nat.not_le_of_lt hlarger)

/-- The canonical form of an orientation with the smallest digest is that orientation. -/
theorem OrientedBy.canonicalizeBy_facing (horiented : OrientedBy g facing) {t : Transform}
    (hleast : ∀ u, Digest.sumOver hash (facing t).coords ≤
      Digest.sumOver hash (facing u).coords) :
    (facing t).canonicalizeBy hash =
      .ok ⟨.identity, facing t, Digest.sumOver hash (facing t).coords⟩ := by
  have hturned := horiented.of_isCopy (horiented.faces t).isCopy horiented.narrow
  have hcanonical := hturned.canonicalizeBy_eq_of_identity hash
  rw [Transform.andThen_identity] at hcanonical
  exact hcanonical fun u => hleast (t.andThen u)

/-- **The canonical form is the first orientation with the smallest digest.**  It is the
pattern at the origin, turned by the symmetry that comes with it and brought back to the
origin, and its digest comes with it too.  No orientation has a smaller digest, those
listed before it have larger ones, and the canonical form of the result is the result. -/
theorem canonicalizeBy_takes_first_smallest (hcanonical : g.canonicalizeBy hash = .ok c) :
    ∃ base before after,
      g.presence.normalized = .ok base ∧
      orientationOrder = before ++ c.transform :: after ∧
      base.oriented c.transform = .ok c.grid ∧
      c.grid.digestBy hash = .ok c.digest ∧
      (∀ t, ∃ turned d, base.oriented t = .ok turned ∧ turned.digestBy hash = .ok d ∧
        c.digest ≤ d ∧ (t ∈ before → c.digest < d)) ∧
      c.grid.canonicalizeBy hash = .ok ⟨.identity, c.grid, c.digest⟩ := by
  obtain ⟨facing, horiented⟩ := exists_orientedBy_of_bind hcanonical
  obtain ⟨before, t, after, horder, hfirst, hbefore, hleast⟩ :=
    horiented.exists_first_smallest hash
  obtain rfl : c = ⟨t, facing t, Digest.sumOver hash (facing t).coords⟩ := by
    rw [hcanonical, Except.ok.injEq] at hfirst
    exact hfirst
  have hbase : ∀ u, (facing .identity).oriented u = .ok (facing u) := by
    intro u
    rw [horiented.oriented_eq, Transform.identity_andThen]
  refine ⟨facing .identity, before, after, horiented.normalized_presence, horder, hbase t,
    (horiented.faces t).digestBy_eq hash, fun u => ?_,
    horiented.canonicalizeBy_facing hash hleast⟩
  exact ⟨facing u, _, hbase u, (horiented.faces u).digestBy_eq hash, hleast u, hbefore u⟩

/-- Three cells in a row and one cell on their side. -/
def hook : Grid :=
  .ofCells [(⟨5, 0⟩, 1), (⟨6, 0⟩, 1), (⟨7, 0⟩, 2), (⟨7, 1⟩, 1)]

/-- A hash that tells columns apart, but not rows. -/
def column (c : Coord) : Digest :=
  c.x.toNat

/-- Two orientations share the smallest digest, and the first of them is taken. -/
theorem hook_takes_first_smallest :
    let upright : Grid := .ofCoords [⟨0, 0⟩, ⟨0, 1⟩, ⟨0, 2⟩, ⟨1, 0⟩]
    hook.orientationDigestsBy column = .ok [5, 3, 3, 1, 3, 5, 1, 3] ∧
      hook.canonicalizeBy column = .ok ⟨.rot270, upright, 1⟩ ∧
      upright.digestBy column = .ok 1 ∧
      upright.canonicalizeBy column = .ok ⟨.identity, upright, 1⟩ := by
  intro upright
  have hcanonical : hook.canonicalizeBy column = .ok ⟨.rot270, upright, 1⟩ := by
    decide +kernel
  obtain ⟨-, -, -, -, -, -, hdigest, -, hagain⟩ :=
    canonicalizeBy_takes_first_smallest column hcanonical
  exact ⟨by decide +kernel, hcanonical, hdigest, hagain⟩

end Grid

end Cellular
