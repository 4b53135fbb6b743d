import Mathlib.Algebra.BigOperators.Ring.Finset
import Mathlib.Algebra.Group.Action.Defs
import Cellular.Proofs.Orientation

/-!
# Symmetry groups of patterns

The automorphisms of a pattern are a group, and each shape among the orientations of the
pattern occurs once for each of them.  So the number of shapes times the number of
automorphisms is eight, and whatever is summed over the orientations is summed over the
shapes that many times.  Turning the pattern conjugates its group.
-/

namespace Cellular

namespace Transform

/-- The symmetry `a` as it acts on what `t` has turned. -/
def conjugate (t a : Transform) : Transform :=
  (t.inverse.andThen a).andThen t

theorem andThen_conjugate (t a : Transform) :
    t.andThen (t.conjugate a) = a.andThen t := by
  cases t <;> cases a <;> rfl

theorem conjugate_andThen_inverse (t u : Transform) :
    t.conjugate ((t.andThen u).andThen t.inverse) = u := by
  cases t <;> cases u <;> rfl

end Transform

/-- If all members of a list occur equally often, a sum over the list is that many times
the sum over the different members. -/
theorem sum_map_eq_mul_sum_dedup {α : Type} [DecidableEq α] {l : List α} {n : ℕ}
    (hcount : ∀ a ∈ l, l.count a = n) (weight : α → ℕ) :
    (l.map weight).sum = n * (l.dedup.map weight).sum := by
  calc
    (l.map weight).sum = ∑ a ∈ l.toFinset, l.count a • weight a :=
      Finset.sum_list_map_count l weight
    _ = ∑ a ∈ l.toFinset, n * weight a := by
      apply Finset.sum_congr rfl
      intro a ha
      rw [hcount a (List.mem_toFinset.1 ha), smul_eq_mul]
    _ = n * ∑ a ∈ l.toFinset, weight a := by rw [Finset.mul_sum]
    _ = n * (l.dedup.map weight).sum := rfl

namespace Grid

variable {g h : Grid} {facing : Transform → Grid} {t u : Transform}

/-- The grids among some orientations, each of them once. -/
def shapes (orientations : List (Transform × Grid)) : List Grid :=
  (orientations.map Prod.snd).dedup

/-- Some symmetries are a group, and are listed without repetitions. -/
structure IsSymmetryGroup (symmetries : List Transform) : Prop where
  nodup : symmetries.Nodup
  identity_mem : .identity ∈ symmetries
  andThen_mem : ∀ t ∈ symmetries, ∀ u ∈ symmetries, t.andThen u ∈ symmetries
  inverse_mem : ∀ t ∈ symmetries, t.inverse ∈ symmetries

/-- The symmetries that leave the first orientation as it is. -/
def stabilizer (facing : Transform → Grid) : List Transform :=
  orientationOrder.filter fun t => facing t = facing .identity

theorem mem_stabilizer_iff : t ∈ stabilizer facing ↔ facing t = facing .identity := by
  rw [stabilizer, List.mem_filter, decide_eq_true_iff]
  exact and_iff_right (Transform.mem_orientationOrder t)

namespace OrientedBy

theorem automorphisms_eq (horiented : OrientedBy g facing) :
    g.automorphisms = .ok (stabilizer facing) := by
  have hbase : (orientationOrder.map fun t => (t, facing t)).head?.map Prod.snd =
      some (facing .identity) := rfl
  rw [automorphisms, horiented.orientations_eq]
  simp only [bind, Except.bind, hbase, List.filter_map, List.map_map, stabilizer,
    Function.comp_def, Option.some.injEq, List.map_id']
  rfl

/-! ## The group -/

/-- Equal orientations stay equal when both are turned. -/
theorem facing_andThen_congr (horiented : OrientedBy g facing)
    (hsame : facing t = facing u) (v : Transform) :
    facing (t.andThen v) = facing (u.andThen v) := by
  have ht := horiented.oriented_eq t v
  have hu := horiented.oriented_eq u v
  rw [hsame, hu, Except.ok.injEq] at ht
  exact ht.symm

theorem facing_andThen_eq_iff (horiented : OrientedBy g facing) (v : Transform) :
    facing (t.andThen v) = facing (u.andThen v) ↔ facing t = facing u := by
  constructor
  · intro hsame
    have hback := horiented.facing_andThen_congr hsame v.inverse
    rwa [Transform.andThen_andThen_inverse, Transform.andThen_andThen_inverse] at hback
  · intro hsame
    exact horiented.facing_andThen_congr hsame v

theorem isSymmetryGroup_stabilizer (horiented : OrientedBy g facing) :
    IsSymmetryGroup (stabilizer facing) where
  nodup := by
    have hnodup : orientationOrder.Nodup := by decide
    exact hnodup.filter _
  identity_mem := mem_stabilizer_iff.2 rfl
  andThen_mem := by
    intro t ht u hu
    rw [mem_stabilizer_iff] at ht hu ⊢
    calc
      facing (t.andThen u) = facing (Transform.identity.andThen u) :=
        horiented.facing_andThen_congr ht u
      _ = facing u := by rw [Transform.identity_andThen]
      _ = facing .identity := hu
  inverse_mem := by
    intro t ht
    rw [mem_stabilizer_iff] at ht ⊢
    calc
      facing t.inverse = facing (Transform.identity.andThen t.inverse) := by
        rw [Transform.identity_andThen]
      _ = facing (t.andThen t.inverse) := (horiented.facing_andThen_congr ht t.inverse).symm
      _ = facing .identity := by rw [Transform.andThen_inverse]

/-- The group of a pattern that `t` has turned is the group of the pattern, conjugated
by `t`. -/
theorem mem_stabilizer_turned_iff (horiented : OrientedBy g facing) :
    u ∈ stabilizer (fun v => facing (t.andThen v)) ↔
      ∃ a ∈ stabilizer facing, t.conjugate a = u := by
  rw [mem_stabilizer_iff, Transform.andThen_identity]
  constructor
  · intro hu
    refine ⟨(t.andThen u).andThen t.inverse, ?_, Transform.conjugate_andThen_inverse t u⟩
    rw [mem_stabilizer_iff, horiented.facing_andThen_congr hu, Transform.andThen_inverse]
  · rintro ⟨a, ha, rfl⟩
    rw [mem_stabilizer_iff] at ha
    rw [Transform.andThen_conjugate, horiented.facing_andThen_congr ha,
      Transform.identity_andThen]

/-! ## Counting orientations -/

/-- Every orientation occurs once for each symmetry of the group. -/
theorem count_facing (horiented : OrientedBy g facing) (u : Transform) :
    (orientationOrder.map facing).count (facing u) = (stabilizer facing).length := by
  calc
    (orientationOrder.map facing).count (facing u) =
        orientationOrder.countP fun t => facing t = facing u := by
      rw [List.count_eq_countP, List.countP_map]
      rfl
    _ = (orientationOrder.map fun t => t.andThen u).countP fun t => facing t = facing u :=
      ((Transform.perm_map_andThen_right u).countP_eq _).symm
    _ = orientationOrder.countP fun t => facing (t.andThen u) = facing u := by
      rw [List.countP_map]
      rfl
    _ = orientationOrder.countP fun t => facing t = facing .identity := by
      congr 1
      funext t
      have hiff := horiented.facing_andThen_eq_iff (t := t) (u := .identity) u
      rw [Transform.identity_andThen] at hiff
      exact decide_eq_decide.2 hiff
    _ = (stabilizer facing).length := List.countP_eq_length_filter

/-- A sum over all orientations counts every shape once for each symmetry of the
group. -/
theorem sum_facing (horiented : OrientedBy g facing) (weight : Grid → ℕ) :
    (orientationOrder.map fun t => weight (facing t)).sum =
      (stabilizer facing).length *
        ((shapes (orientationOrder.map fun t => (t, facing t))).map weight).sum := by
  have hcount : ∀ shape ∈ orientationOrder.map facing,
      (orientationOrder.map facing).count shape = (stabilizer facing).length := by
    intro shape hshape
    obtain ⟨u, -, rfl⟩ := List.mem_map.1 hshape
    exact horiented.count_facing u
  have hsum := sum_map_eq_mul_sum_dedup hcount weight
  rw [List.map_map] at hsum
  rw [shapes, List.map_map]
  exact hsum

theorem length_shapes_mul (horiented : OrientedBy g facing) :
    (shapes (orientationOrder.map fun t => (t, facing t))).length *
      (stabilizer facing).length = 8 := by
  have hsum := horiented.sum_facing fun _ => 1
  simp only [List.map_const', List.sum_replicate, nsmul_eq_mul, Nat.cast_id, Nat.mul_one] at hsum
  rw [Nat.mul_comm]
  exact hsum.symm

/-- The digests of all orientations add up to those of the shapes, each as often as there
are symmetries in the group. -/
theorem exists_shape_digests (horiented : OrientedBy g facing) (hash : Coord → Digest) :
    ∃ digests,
      List.Forall₂ (fun shape d => shape.digestBy hash = .ok d)
        (shapes (orientationOrder.map fun t => (t, facing t))) digests ∧
      g.symmetricDigestBy hash = .ok ((stabilizer facing).length * digests.sum) := by
  let weight : Grid → Digest := fun shape => Digest.sumOver hash shape.coords
  refine ⟨(shapes (orientationOrder.map fun t => (t, facing t))).map weight, ?_, ?_⟩
  · rw [List.forall₂_map_right_iff, List.forall₂_same]
    intro shape hshape
    rw [shapes, List.mem_dedup, List.map_map] at hshape
    obtain ⟨t, -, rfl⟩ := List.mem_map.1 hshape
    exact (horiented.faces t).digestBy_eq hash
  · rw [horiented.symmetricDigestBy_eq]
    exact congrArg Except.ok (horiented.sum_facing weight)

end OrientedBy

/-- **The automorphisms of a pattern are its symmetry group.**  They are the symmetries
that turn the pattern at the origin into itself, and they are closed under composition
and inverses.  Each shape of the pattern is met in as many orientations as there are
automorphisms, which gives the number of shapes and, for every hash of the cells, the
sum of all digests.  Turning the pattern conjugates the group. -/
theorem automorphisms_are_symmetry_group {symmetries : List Transform}
    (hsymmetries : g.automorphisms = .ok symmetries) :
    ∃ base orientations,
      g.presence.normalized = .ok base ∧ g.orientations = .ok orientations ∧
      IsSymmetryGroup symmetries ∧
      (∀ t, t ∈ symmetries ↔ base.oriented t = .ok base) ∧
      (shapes orientations).length * symmetries.length = 8 ∧
      (∀ hash, ∃ digests,
        List.Forall₂ (fun shape d => shape.digestBy hash = .ok d) (shapes orientations)
          digests ∧
        g.symmetricDigestBy hash = .ok (symmetries.length * digests.sum)) ∧
      ∀ t turned, g.transformed t = .ok turned → ∃ conjugates,
        turned.automorphisms = .ok conjugates ∧ conjugates.Nodup ∧
          ∀ u, u ∈ conjugates ↔
            ∃ a ∈ symmetries, (t.inverse.andThen a).andThen t = u := by
  obtain ⟨facing, horiented⟩ := exists_orientedBy_of_bind hsymmetries
  have hstabilizer := horiented.automorphisms_eq
  rw [hsymmetries, Except.ok.injEq] at hstabilizer
  subst hstabilizer
  have hgroup := horiented.isSymmetryGroup_stabilizer
  refine ⟨_, _, horiented.normalized_presence, horiented.orientations_eq, hgroup, ?_,
    horiented.length_shapes_mul, horiented.exists_shape_digests, ?_⟩
  · intro t
    rw [mem_stabilizer_iff, horiented.oriented_eq, Transform.identity_andThen,
      Except.ok.injEq]
  · intro t turned hturned
    have hother := horiented.of_isCopy (isCopy_of_transformed hturned) horiented.narrow
    exact ⟨_, hother.automorphisms_eq, hother.isSymmetryGroup_stabilizer.nodup,
      fun u => horiented.mem_stabilizer_turned_iff⟩

/-- The corner has one reflection, and so four shapes.  A rotation by three quarters takes
the reflection to the one in the other diagonal. -/
theorem cornerPiece_has_symmetry_group :
    cornerPiece.automorphisms = .ok [.identity, .flipAntiDiagonal] ∧
      (∃ orientations, cornerPiece.orientations = .ok orientations ∧
        (shapes orientations).length = 4) ∧
      ∃ turned conjugates, cornerPiece.transformed .rot270 = .ok turned ∧
        turned.automorphisms = .ok conjugates ∧ .flipDiagonal ∈ conjugates ∧
        .flipAntiDiagonal ∉ conjugates := by
  have hsymmetries : cornerPiece.automorphisms = .ok [.identity, .flipAntiDiagonal] := by
    decide +kernel
  have hturned : cornerPiece.transformed .rot270 =
      .ok (.ofCells [(⟨0, 0⟩, 1), (⟨1, 0⟩, 2), (⟨1, -1⟩, 1)]) := by decide +kernel
  obtain ⟨-, orientations, -, horientations, -, -, hshapes, -, hconjugate⟩ :=
    automorphisms_are_symmetry_group hsymmetries
  obtain ⟨conjugates, hconjugates, -, hmem⟩ := hconjugate _ _ hturned
  refine ⟨hsymmetries, ⟨orientations, horientations, ?_⟩,
    ⟨_, conjugates, hturned, hconjugates, ?_, ?_⟩⟩
  · rw [List.length_cons, List.length_singleton] at hshapes
    omega
  · rw [hmem]
    decide
  · rw [hmem]
    decide

end Grid

end Cellular
