import Mathlib.Algebra.BigOperators.Group.List.Basic
import Mathlib.Algebra.GroupWithZero.Nat
import Cellular.Pattern.Orientation
import Cellular.Proofs.Congruence

/-!
# Orientations and digests of copies

The orientations of a grid are known as one function from the symmetries to
grids.  The function of a copy is that of the grid after a symmetry, so that
whatever is computed from all orientations without regard to their order is the
same for both.
-/

namespace Cellular

namespace Grid

variable {g m : Grid} {t : Transform} {facing : Transform → Grid}

/-- `facing` gives the orientations of a grid, and all eight are listed. -/
structure OrientedBy (g : Grid) (facing : Transform → Grid) : Prop where
  faces : ∀ t, Faces g t (facing t)
  orientations_eq :
    g.orientations = .ok (orientationOrder.map fun t => (t, facing t))

/-- A grid at the origin that is not too large can be turned in place. -/
theorem exists_transformed (hnarrow : g.Narrow) (horigin : g.AtOrigin)
    (t : Transform) : ∃ h, g.transformed t = .ok h := by
  refine ⟨_, remap_eq_ok_iff.2 ⟨?_, rfl⟩⟩
  intro c hc
  have hne : g.coords ≠ [] := List.ne_nil_of_mem hc
  obtain ⟨left, hleft, hx⟩ := horigin.exists_left hne
  obtain ⟨top, htop, hy⟩ := horigin.exists_top hne
  have hnonneg := horigin.nonneg c hc
  have hwidth := (hnarrow c hc left hleft).1
  have hheight := (hnarrow c hc top htop).2
  rw [Coord.Fits, Coord.least]
  rw [Coord.greatest] at hwidth hheight ⊢
  cases t <;> simp only [Transform.apply] <;> omega

/-- A narrow grid at the origin has an orientation for each symmetry. -/
theorem exists_oriented (hpresence : g.presence = g) (hnarrow : g.Narrow)
    (horigin : g.AtOrigin) (t : Transform) :
    ∃ h, g.oriented t = .ok h ∧ Faces g t h := by
  obtain ⟨turned, hturned⟩ := exists_transformed hnarrow horigin t
  have hcopy := isCopy_of_transformed hturned
  obtain ⟨h, hnormalized⟩ := exists_normalized (hcopy.narrow hnarrow)
  refine ⟨h, ?_, ?_⟩
  · rw [oriented, hturned]
    exact hnormalized
  · have hturnedPresence := presence_eq_of_remap hpresence hturned
    exact faces_of_normalized hturnedPresence hcopy hnormalized

theorem orientedAll_eq (horiented : ∀ t, g.oriented t = .ok (facing t))
    (ts : List Transform) :
    g.orientedAll ts = .ok (ts.map fun t => (t, facing t)) := by
  induction ts with
  | nil => rfl
  | cons t rest ih =>
    rw [orientedAll, horiented, ih]
    rfl

theorem exists_orientedBy (hnarrow : g.Narrow) : ∃ facing, OrientedBy g facing := by
  have hpresence := isCopy_presence g
  obtain ⟨base, hbase⟩ := exists_normalized (hpresence.narrow hnarrow)
  have hface := faces_of_normalized (presence_presence g) hpresence hbase
  have hfacing := exists_oriented hface.presence_eq
    (hface.isCopy.narrow hnarrow) hface.atOrigin
  choose facing horiented hfaces using hfacing
  refine ⟨facing, fun t => ?_, ?_⟩
  · have hwhole := (hfaces t).of_isCopy hface.isCopy
    rwa [Transform.identity_andThen] at hwhole
  · rw [orientations, hbase]
    exact orientedAll_eq horiented orientationOrder

theorem orientations_of_not_narrow (hwide : ¬ g.Narrow) :
    g.orientations = .error .coordinateOverflow := by
  have hbase := normalized_of_not_narrow (mt (isCopy_presence g).narrow_iff.1 hwide)
  rw [orientations, hbase]
  rfl

/-- Where a result is computed from the orientations, all eight of them are given. -/
theorem exists_orientedBy_of_bind {α : Type} {a : α}
    {f : List (Transform × Grid) → Except GridError α}
    (hresult : g.orientations >>= f = .ok a) : ∃ facing, OrientedBy g facing := by
  by_cases hnarrow : g.Narrow
  · exact exists_orientedBy hnarrow
  · rw [orientations_of_not_narrow hnarrow] at hresult
    cases hresult

theorem OrientedBy.narrow (horiented : OrientedBy g facing) : g.Narrow :=
  (horiented.faces .identity).isCopy.narrow_iff.1
    (narrow_of_normalized (horiented.faces .identity).normalized_eq)

/-- The first orientation is the pattern at the origin. -/
theorem OrientedBy.normalized_presence (horiented : OrientedBy g facing) :
    g.presence.normalized = .ok (facing .identity) := by
  have hpresence := isCopy_presence g
  obtain ⟨base, hbase⟩ := exists_normalized (hpresence.narrow horiented.narrow)
  have hface := faces_of_normalized (presence_presence g) hpresence hbase
  rw [hbase, hface.unique (horiented.faces .identity)]

/-- Turning an orientation leads to the orientation for both symmetries in turn. -/
theorem OrientedBy.oriented_eq (horiented : OrientedBy g facing) (t u : Transform) :
    (facing t).oriented u = .ok (facing (t.andThen u)) := by
  have hface := horiented.faces t
  obtain ⟨h, hturned, hfaceTurned⟩ := exists_oriented hface.presence_eq
    (narrow_of_normalized hface.normalized_eq) hface.atOrigin u
  rw [hturned, (hfaceTurned.of_isCopy hface.isCopy).unique (horiented.faces _)]

/-- The orientations of a copy are those of the grid, each reached by the
symmetry that makes the copy and one more. -/
theorem OrientedBy.of_isCopy (horiented : OrientedBy g facing) (hcopy : IsCopy t g m)
    (hnarrow : g.Narrow) : OrientedBy m fun u => facing (t.andThen u) := by
  obtain ⟨other, hother⟩ := exists_orientedBy (hcopy.narrow hnarrow)
  have heq : other = fun u => facing (t.andThen u) := by
    funext u
    exact ((hother.faces u).of_isCopy hcopy).unique (horiented.faces _)
  exact heq ▸ hother

/-- A grid and its copy are listed in the same orientations, or both are too
large for it. -/
theorem orientations_of_isCopy (hcopy : IsCopy t g m) :
    (∃ facing, OrientedBy g facing ∧ OrientedBy m fun u => facing (t.andThen u)) ∨
      ∃ e, g.orientations = .error e ∧ m.orientations = .error e := by
  by_cases hnarrow : g.Narrow
  · obtain ⟨facing, hfacing⟩ := exists_orientedBy hnarrow
    exact Or.inl ⟨facing, hfacing, hfacing.of_isCopy hcopy hnarrow⟩
  · have hwide : ¬ m.Narrow := mt hcopy.narrow_iff.1 hnarrow
    exact Or.inr ⟨_, orientations_of_not_narrow hnarrow, orientations_of_not_narrow hwide⟩

/-- An operation that returns the lower one of its arguments picks the lowest of
the values of the eight symmetries. -/
theorem exists_fold_orientations {α : Type} {op : α → α → α}
    (hop : ∀ a b, op a b = a ∨ op a b = b) (below : α → α → Prop)
    (hrefl : ∀ a, below a a) (htrans : ∀ {a b c}, below a b → below b c → below a c)
    (hleft : ∀ a b, below (op a b) a) (hright : ∀ a b, below (op a b) b)
    (value : Transform → α) :
    ∃ t, (orientationOrder.tail.map value).foldl op (value .identity) = value t ∧
      ∀ u, below (value t) (value u) := by
  have hall : value .identity :: orientationOrder.tail.map value =
      orientationOrder.map value := rfl
  have hmem := BoundingBox.foldl_mem hop (value .identity)
    (orientationOrder.tail.map value)
  rw [hall] at hmem
  obtain ⟨t, -, ht⟩ := List.mem_map.1 hmem
  refine ⟨t, ht.symm, fun u => ?_⟩
  have hu : value u ∈ value .identity :: orientationOrder.tail.map value := by
    rw [hall]
    exact List.mem_map_of_mem (Transform.mem_orientationOrder u)
  rw [ht]
  exact BoundingBox.foldl_rel below hrefl htrans hleft hright hu

/-! ## Digests -/

section Digests

variable (hash : Coord → Digest)

theorem Faces.digestBy_eq {h : Grid} (hface : Faces g t h) :
    h.digestBy hash = .ok (Digest.sumOver hash h.coords) := by
  rw [digestBy, hface.normalized_eq]
  rfl

theorem digestsBy_eq (hfaces : ∀ t, Faces g t (facing t)) (ts : List Transform) :
    digestsBy hash (ts.map fun t => (t, facing t)) =
      .ok (ts.map fun t => Digest.sumOver hash (facing t).coords) := by
  induction ts with
  | nil => rfl
  | cons t rest ih =>
    rw [List.map_cons, digestsBy, (hfaces t).digestBy_eq, ih]
    rfl

theorem OrientedBy.orientationDigestsBy_eq (horiented : OrientedBy g facing) :
    g.orientationDigestsBy hash =
      .ok (orientationOrder.map fun t => Digest.sumOver hash (facing t).coords) := by
  rw [orientationDigestsBy, horiented.orientations_eq]
  exact digestsBy_eq hash horiented.faces orientationOrder

/-- `c` is the first of the candidates with the smallest digest. -/
def IsFirstSmallest (c : Canonical) (candidates : List Canonical) : Prop :=
  ∃ before after, candidates = before ++ c :: after ∧
    (∀ b ∈ before, c.digest < b.digest) ∧ ∀ a ∈ after, c.digest ≤ a.digest

namespace IsFirstSmallest

variable {c best next : Canonical} {rest : List Canonical}

theorem digest_le (h : IsFirstSmallest c rest) (hnext : next ∈ rest) :
    c.digest ≤ next.digest := by
  obtain ⟨before, after, rfl, hbefore, hafter⟩ := h
  rw [List.mem_append, List.mem_cons] at hnext
  rcases hnext with hnext | rfl | hnext
  · exact Nat.le_of_lt (hbefore next hnext)
  · exact Nat.le_refl _
  · exact hafter next hnext

/-- A better candidate takes the place of the best one. -/
theorem of_replaced (h : IsFirstSmallest c (next :: rest))
    (hlt : next.digest < best.digest) : IsFirstSmallest c (best :: next :: rest) := by
  have hle : c.digest ≤ next.digest := h.digest_le List.mem_cons_self
  obtain ⟨before, after, hsplit, hbefore, hafter⟩ := h
  refine ⟨best :: before, after, by rw [hsplit, List.cons_append], ?_, hafter⟩
  intro b hb
  rcases List.mem_cons.1 hb with rfl | hb
  · exact Nat.lt_of_le_of_lt hle hlt
  · exact hbefore b hb

/-- A candidate that is not better is passed over. -/
theorem of_passed (h : IsFirstSmallest c (best :: rest))
    (hle : best.digest ≤ next.digest) : IsFirstSmallest c (best :: next :: rest) := by
  obtain ⟨before, after, hsplit, hbefore, hafter⟩ := h
  cases before with
  | nil =>
    obtain ⟨rfl, rfl⟩ := List.cons.inj hsplit
    refine ⟨[], next :: rest, rfl, hbefore, ?_⟩
    intro a ha
    rcases List.mem_cons.1 ha with rfl | ha
    · exact hle
    · exact hafter a ha
  | cons first before =>
    obtain ⟨rfl, rfl⟩ := List.cons.inj hsplit
    have hbest : c.digest < best.digest := hbefore best List.mem_cons_self
    refine ⟨best :: next :: before, after, rfl, ?_, hafter⟩
    intro b hb
    simp only [List.mem_cons] at hb hbefore
    rcases hb with rfl | rfl | hb
    · exact hbest
    · exact Nat.lt_of_lt_of_le hbest hle
    · exact hbefore b (Or.inr hb)

end IsFirstSmallest

theorem isFirstSmallest_smallest (best : Canonical) (candidates : List Canonical) :
    IsFirstSmallest (smallest best candidates) (best :: candidates) := by
  induction candidates generalizing best with
  | nil => exact ⟨[], [], rfl, by simp, by simp⟩
  | cons next rest ih =>
    rw [smallest, List.foldl_cons]
    by_cases hlt : next.digest < best.digest
    · rw [if_pos hlt]
      exact (ih next).of_replaced hlt
    · rw [if_neg hlt]
      exact (ih best).of_passed (Nat.le_of_not_lt hlt)

/-- The canonical form is the first of the orientations with the smallest digest. -/
theorem OrientedBy.exists_first_smallest (horiented : OrientedBy g facing) :
    ∃ before t after, orientationOrder = before ++ t :: after ∧
      g.canonicalizeBy hash =
        .ok ⟨t, facing t, Digest.sumOver hash (facing t).coords⟩ ∧
      (∀ u ∈ before, Digest.sumOver hash (facing t).coords <
        Digest.sumOver hash (facing u).coords) ∧
      ∀ u, Digest.sumOver hash (facing t).coords ≤
        Digest.sumOver hash (facing u).coords := by
  let candidate : Transform → Canonical := fun t =>
    ⟨t, facing t, Digest.sumOver hash (facing t).coords⟩
  have hall : candidate .identity :: orientationOrder.tail.map candidate =
      orientationOrder.map candidate := rfl
  have hcandidates : g.canonicalizeBy hash =
      .ok (smallest (candidate .identity) (orientationOrder.tail.map candidate)) := by
    rw [canonicalizeBy, horiented.orientations_eq]
    simp only [bind, Except.bind]
    rw [digestsBy_eq hash horiented.faces]
    rfl
  have hfirst := isFirstSmallest_smallest (candidate .identity)
    (orientationOrder.tail.map candidate)
  rw [hall] at hfirst
  have hleast : ∀ u, _ ≤ (candidate u).digest := fun u =>
    hfirst.digest_le (List.mem_map_of_mem (Transform.mem_orientationOrder u))
  -- The choice is made at some place of the list of candidates, hence of the symmetries.
  obtain ⟨larger, others, hsplit, hlarger, -⟩ := hfirst
  rw [List.map_eq_append_iff] at hsplit
  obtain ⟨before, rest, horder, rfl, hrest⟩ := hsplit
  rw [List.map_eq_cons_iff] at hrest
  obtain ⟨t, after, rfl, ht, -⟩ := hrest
  rw [← ht] at hlarger hcandidates hleast
  exact ⟨before, t, after, horder, hcandidates,
    fun u hu => hlarger _ (List.mem_map_of_mem hu), hleast⟩

/-- The canonical form is an orientation, and none has a smaller digest. -/
theorem OrientedBy.exists_canonicalizeBy (horiented : OrientedBy g facing) :
    ∃ t, g.canonicalizeBy hash =
        .ok ⟨t, facing t, Digest.sumOver hash (facing t).coords⟩ ∧
      ∀ u, Digest.sumOver hash (facing t).coords ≤
        Digest.sumOver hash (facing u).coords := by
  obtain ⟨-, t, -, -, hcanonical, -, hleast⟩ := horiented.exists_first_smallest hash
  exact ⟨t, hcanonical, hleast⟩

theorem OrientedBy.symmetricDigestBy_eq (horiented : OrientedBy g facing) :
    g.symmetricDigestBy hash =
      .ok (orientationOrder.map fun t => Digest.sumOver hash (facing t).coords).sum := by
  rw [symmetricDigestBy, horiented.orientationDigestsBy_eq]
  rfl

/-- All orientations that have the smallest digest are one grid. -/
def TiesAgree (orientations : List (Transform × Grid)) (digests : List Digest) : Prop :=
  ∀ o ∈ orientations.zip digests, ∀ p ∈ orientations.zip digests,
    (∀ d ∈ digests, o.2 ≤ d) → (∀ d ∈ digests, p.2 ≤ d) → o.1.2 = p.1.2

instance (orientations : List (Transform × Grid)) (digests : List Digest) :
    Decidable (TiesAgree orientations digests) :=
  inferInstanceAs (Decidable (∀ o ∈ orientations.zip digests, ∀ p ∈ orientations.zip digests, _))

/-- The digests of a grid are refused, all for one reason. -/
structure DigestsRefused (g : Grid) (e : GridError) : Prop where
  orientationDigests : g.orientationDigestsBy hash = .error e
  canonicalize : g.canonicalizeBy hash = .error e
  canonicalDigest : g.canonicalDigestBy hash = .error e
  symmetricDigest : g.symmetricDigestBy hash = .error e

/-- The digests of two grids are given and cannot tell them apart. -/
structure DigestsAgree (g m : Grid) : Prop where
  orientationDigests : ∃ digests others, g.orientationDigestsBy hash = .ok digests ∧
    m.orientationDigestsBy hash = .ok others ∧ others.Perm digests
  canonicalDigest : ∃ d, g.canonicalDigestBy hash = .ok d ∧ m.canonicalDigestBy hash = .ok d
  symmetricDigest : ∃ d, g.symmetricDigestBy hash = .ok d ∧ m.symmetricDigestBy hash = .ok d
  canonicalGrid : ∀ {orientations digests}, g.orientations = .ok orientations →
    g.orientationDigestsBy hash = .ok digests → TiesAgree orientations digests →
    ∃ c c', g.canonicalizeBy hash = .ok c ∧ m.canonicalizeBy hash = .ok c' ∧
      c'.grid = c.grid

theorem digestsRefused_of_orientations {e : GridError}
    (horientations : g.orientations = .error e) : DigestsRefused hash g e := by
  have hdigests : g.orientationDigestsBy hash = .error e := by
    rw [orientationDigestsBy, horientations]
    rfl
  have hcanonical : g.canonicalizeBy hash = .error e := by
    rw [canonicalizeBy, horientations]
    rfl
  refine ⟨hdigests, hcanonical, ?_, ?_⟩
  · rw [canonicalDigestBy, hcanonical]
    rfl
  · rw [symmetricDigestBy, hdigests]
    rfl

theorem digestsAgree_of_orientedBy (hg : OrientedBy g facing)
    (hm : OrientedBy m fun u => facing (t.andThen u)) : DigestsAgree hash g m := by
  let weight : Transform → Digest := fun u => Digest.sumOver hash (facing u).coords
  obtain ⟨u, hu, hleast⟩ := hg.exists_canonicalizeBy hash
  obtain ⟨v, hv, hleast'⟩ := hm.exists_canonicalizeBy hash
  have hover : ∀ w, weight (t.andThen v) ≤ weight w := by
    intro w
    have hle := hleast' (t.inverse.andThen w)
    rwa [Transform.andThen_inverse_andThen] at hle
  have hperm : (orientationOrder.map fun w => weight (t.andThen w)).Perm
      (orientationOrder.map weight) := by
    have hmap := (Transform.perm_map_andThen t).map weight
    rwa [List.map_map] at hmap
  have hdigest : weight (t.andThen v) = weight u :=
    Nat.le_antisymm (hover u) (hleast _)
  constructor
  · exact ⟨_, _, hg.orientationDigestsBy_eq hash, hm.orientationDigestsBy_eq hash, hperm⟩
  · refine ⟨weight u, ?_, ?_⟩
    · rw [canonicalDigestBy, hu]
      rfl
    · rw [canonicalDigestBy, hv, ← hdigest]
      rfl
  · refine ⟨_, hg.symmetricDigestBy_eq hash, ?_⟩
    rw [hm.symmetricDigestBy_eq hash, Except.ok.injEq]
    exact hperm.sum_eq
  · intro orientations digests horientations hdigests hties
    rw [hg.orientations_eq, Except.ok.injEq] at horientations
    rw [hg.orientationDigestsBy_eq, Except.ok.injEq] at hdigests
    subst horientations hdigests
    refine ⟨_, _, hu, hv, ?_⟩
    have hzip : ∀ w, ((w, facing w), weight w) ∈
        (orientationOrder.map fun t => (t, facing t)).zip (orientationOrder.map weight) := by
      intro w
      rw [List.zip_map']
      exact List.mem_map_of_mem (Transform.mem_orientationOrder w)
    apply hties _ (hzip (t.andThen v)) _ (hzip u)
    · intro d hd
      obtain ⟨w, -, rfl⟩ := List.mem_map.1 hd
      exact hover w
    · intro d hd
      obtain ⟨w, -, rfl⟩ := List.mem_map.1 hd
      exact hleast w

/-- A pattern that was turned, reflected or moved has the digests it had, in
another order, and so the same canonical digest and the same symmetric digest,
or these are refused before and after.  Its canonical form is the same grid
unless different orientations share the smallest digest. -/
theorem digests_of_transformed_shifted {turned : Grid} {d : Coord}
    (hturned : g.transformed t = .ok turned) (hshifted : turned.shifted d = .ok m) :
    (∃ e, DigestsRefused hash g e ∧ DigestsRefused hash m e) ∨ DigestsAgree hash g m := by
  have hcopy := (isCopy_of_transformed hturned).trans (isCopy_of_shifted hshifted)
  rcases orientations_of_isCopy hcopy with ⟨facing, hg, hm⟩ | ⟨e, hg, hm⟩
  · exact Or.inr (digestsAgree_of_orientedBy hash hg hm)
  · exact Or.inl ⟨e, digestsRefused_of_orientations hash hg,
      digestsRefused_of_orientations hash hm⟩

/-- Three cells around a corner: the pattern is its own reflection in a
diagonal, so that each of its digests is that of two orientations. -/
def cornerPiece : Grid :=
  .ofCells [(⟨0, 0⟩, 1), (⟨0, 1⟩, 2), (⟨1, 1⟩, 1)]

/-- A linear hash. -/
def slope (c : Coord) : Digest :=
  (2 * c.x + 5 * c.y).toNat

theorem cornerPiece_keeps_canonical_form :
    let turned : Grid := .ofCells [(⟨0, 0⟩, 1), (⟨1, 0⟩, 2), (⟨1, -1⟩, 1)]
    let moved : Grid := .ofCells [(⟨-4, 9⟩, 1), (⟨-3, 9⟩, 2), (⟨-3, 8⟩, 1)]
    cornerPiece.transformed .rot270 = .ok turned ∧
      turned.shifted ⟨-4, 9⟩ = .ok moved ∧
      moved.canonicalDigestBy slope = .ok 7 ∧
      (moved.canonicalizeBy slope).map Canonical.grid =
        .ok (.ofCoords [⟨0, 0⟩, ⟨1, 0⟩, ⟨0, 1⟩]) := by
  intro turned moved
  have hturned : cornerPiece.transformed .rot270 = .ok turned := by decide +kernel
  have hshifted : turned.shifted ⟨-4, 9⟩ = .ok moved := by decide +kernel
  have hdigest : cornerPiece.canonicalDigestBy slope = .ok 7 := by decide +kernel
  refine ⟨hturned, hshifted, ?_⟩
  rcases digests_of_transformed_shifted slope hturned hshifted with ⟨e, hrefused, -⟩ | hagree
  · have herror := hrefused.canonicalDigest
    rw [hdigest] at herror
    cases herror
  · obtain ⟨d, hd, hmoved⟩ := hagree.canonicalDigest
    rw [hdigest, Except.ok.injEq] at hd
    rw [hmoved, hd]
    refine ⟨rfl, ?_⟩
    obtain ⟨c, c', hc, hc', hgrid⟩ := hagree.canonicalGrid rfl rfl (by decide +kernel)
    have hcanonical : (cornerPiece.canonicalizeBy slope).map Canonical.grid =
        .ok (.ofCoords [⟨0, 0⟩, ⟨1, 0⟩, ⟨0, 1⟩]) := by decide +kernel
    rw [hc] at hcanonical
    rw [hc', Except.map, hgrid]
    exact hcanonical

end Digests

end Grid

end Cellular
