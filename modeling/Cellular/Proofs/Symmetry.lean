import Mathlib.Algebra.Group.Even
import Mathlib.Algebra.Group.Fin.Basic
import Mathlib.Algebra.Group.Subgroup.Lattice
import Mathlib.Data.Fintype.EquivFin
import Mathlib.Data.List.FinRange
import Mathlib.Data.List.Perm.Basic
import Mathlib.GroupTheory.Perm.Basic
import Cellular.Rule.Clause

/-!
# The groups of symmetries

A symmetry of a rule table names a group of permutations of the eight places of
a ring.  The group is given by what generates it, without reference to the
lists of rings that the table builder works with; the main result is that these
lists hold exactly the images of a ring under the group.
-/

namespace Cellular

namespace Symmetry

/-- Every place goes `k` places on. -/
def turn (k : Fin 8) : Equiv.Perm (Fin 8) :=
  Equiv.addRight k

/-- The places are reflected in the horizontal axis. -/
def reflection : Equiv.Perm (Fin 8) :=
  Equiv.subLeft 4

/-- What generates the group of a symmetry. -/
def generators : Symmetry → Set (Equiv.Perm (Fin 8))
  | none => ∅
  | permute => Set.univ
  | rotate4 => {turn 2}
  | rotate4reflect => {turn 2, reflection}
  | rotate8 => {turn 1}

/-- The permutations of the places under which a symmetry lets a clause
stand for further clauses. -/
def group (symmetry : Symmetry) : Subgroup (Equiv.Perm (Fin 8)) :=
  Subgroup.closure symmetry.generators

theorem turn_mul_turn (a b : Fin 8) : turn a * turn b = turn (a + b) := by
  ext place : 1
  simp only [turn, Equiv.Perm.mul_apply, Equiv.coe_addRight]
  rw [add_assoc, add_comm b a]

theorem turn_zero : turn 0 = 1 := by
  ext place : 1
  simp [turn]

theorem turn_inv (a : Fin 8) : (turn a)⁻¹ = turn (-a) := by
  rw [inv_eq_iff_mul_eq_one, turn_mul_turn, add_neg_cancel, turn_zero]

theorem turn_pow (a : Fin 8) (n : ℕ) : turn a ^ n = turn (n • a) := by
  induction n with
  | zero => rw [pow_zero, zero_nsmul, turn_zero]
  | succ n ih => rw [pow_succ, ih, turn_mul_turn, succ_nsmul]

theorem reflection_mul_turn (a : Fin 8) :
    reflection * turn a = turn (-a) * reflection := by
  ext place : 1
  simp only [reflection, turn, Equiv.Perm.mul_apply, Equiv.coe_addRight,
    Equiv.subLeft_apply]
  rw [sub_add_eq_sub_sub, sub_eq_add_neg (4 - place)]

theorem reflection_mul_reflection : reflection * reflection = 1 := by
  ext place : 1
  simp [reflection]

theorem reflection_inv : reflection⁻¹ = reflection :=
  inv_eq_iff_mul_eq_one.2 reflection_mul_reflection

private theorem turn_mem_closure {generator : Fin 8}
    {generators : Set (Equiv.Perm (Fin 8))}
    (hmem : turn generator ∈ generators) (n : ℕ) :
    turn (n • generator) ∈ Subgroup.closure generators := by
  rw [← turn_pow]
  exact Subgroup.pow_mem _ (Subgroup.subset_closure hmem) n

private theorem turn_even_mem_closure {generators : Set (Equiv.Perm (Fin 8))}
    (hmem : turn 2 ∈ generators) {a : Fin 8} (ha : Even a) :
    turn a ∈ Subgroup.closure generators := by
  obtain ⟨r, rfl⟩ := ha
  have hr : r + r = r.val • (2 : Fin 8) := by
    revert r
    decide
  rw [hr]
  exact turn_mem_closure hmem r.val

theorem mem_group_none_iff {motion : Equiv.Perm (Fin 8)} :
    motion ∈ none.group ↔ motion = 1 := by
  rw [group, generators, Subgroup.closure_empty, Subgroup.mem_bot]

theorem mem_group_permute (motion : Equiv.Perm (Fin 8)) :
    motion ∈ permute.group := by
  rw [group, generators, Subgroup.closure_univ]
  exact Subgroup.mem_top motion

/-- The group of the quarter turns has the turns by an even number of
places. -/
theorem mem_group_rotate4_iff {motion : Equiv.Perm (Fin 8)} :
    motion ∈ rotate4.group ↔ ∃ a, Even a ∧ motion = turn a := by
  constructor
  · intro h
    induction h using Subgroup.closure_induction with
    | mem x hx => exact ⟨2, ⟨1, rfl⟩, hx⟩
    | one => exact ⟨0, Even.zero, turn_zero.symm⟩
    | mul x y _ _ hx hy =>
      obtain ⟨a, ha, rfl⟩ := hx
      obtain ⟨b, hb, rfl⟩ := hy
      exact ⟨a + b, ha.add hb, turn_mul_turn a b⟩
    | inv x _ hx =>
      obtain ⟨a, ha, rfl⟩ := hx
      exact ⟨-a, ha.neg, turn_inv a⟩
  · rintro ⟨a, ha, rfl⟩
    exact turn_even_mem_closure (Set.mem_singleton _) ha

/-- The group of the quarter turns and reflections has the turns by an even
number of places, each with or without a reflection before it. -/
theorem mem_group_rotate4reflect_iff {motion : Equiv.Perm (Fin 8)} :
    motion ∈ rotate4reflect.group ↔
      ∃ a, Even a ∧ (motion = turn a ∨ motion = turn a * reflection) := by
  constructor
  · intro h
    induction h using Subgroup.closure_induction with
    | mem x hx =>
      rcases hx with rfl | rfl
      · exact ⟨2, ⟨1, rfl⟩, Or.inl rfl⟩
      · exact ⟨0, Even.zero, Or.inr (by rw [turn_zero, one_mul])⟩
    | one => exact ⟨0, Even.zero, Or.inl turn_zero.symm⟩
    | mul x y _ _ hx hy =>
      obtain ⟨a, ha, rfl | rfl⟩ := hx <;> obtain ⟨b, hb, rfl | rfl⟩ := hy
      · exact ⟨a + b, ha.add hb, Or.inl (turn_mul_turn a b)⟩
      · exact ⟨a + b, ha.add hb, Or.inr (by rw [← mul_assoc, turn_mul_turn])⟩
      · refine ⟨a + -b, ha.add hb.neg, Or.inr ?_⟩
        rw [mul_assoc, reflection_mul_turn, ← mul_assoc, turn_mul_turn]
      · refine ⟨a + -b, ha.add hb.neg, Or.inl ?_⟩
        rw [mul_assoc, ← mul_assoc reflection, reflection_mul_turn, mul_assoc,
          reflection_mul_reflection, mul_one, turn_mul_turn]
    | inv x _ hx =>
      obtain ⟨a, ha, rfl | rfl⟩ := hx
      · exact ⟨-a, ha.neg, Or.inl (turn_inv a)⟩
      · refine ⟨a, ha, Or.inr ?_⟩
        rw [mul_inv_rev, reflection_inv, turn_inv, reflection_mul_turn, neg_neg]
  · rintro ⟨a, ha, rfl | rfl⟩
    · exact turn_even_mem_closure (Set.mem_insert _ _) ha
    · refine Subgroup.mul_mem _
        (turn_even_mem_closure (Set.mem_insert _ _) ha) ?_
      exact Subgroup.subset_closure (Set.mem_insert_of_mem _ rfl)

/-- The group of the cyclic shifts has all turns. -/
theorem mem_group_rotate8_iff {motion : Equiv.Perm (Fin 8)} :
    motion ∈ rotate8.group ↔ ∃ a, motion = turn a := by
  constructor
  · intro h
    induction h using Subgroup.closure_induction with
    | mem x hx => exact ⟨1, hx⟩
    | one => exact ⟨0, turn_zero.symm⟩
    | mul x y _ _ hx hy =>
      obtain ⟨a, rfl⟩ := hx
      obtain ⟨b, rfl⟩ := hy
      exact ⟨a + b, turn_mul_turn a b⟩
    | inv x _ hx =>
      obtain ⟨a, rfl⟩ := hx
      exact ⟨-a, turn_inv a⟩
  · rintro ⟨a, rfl⟩
    have ha : a = a.val • (1 : Fin 8) := by
      revert a
      decide
    rw [ha]
    exact turn_mem_closure (Set.mem_singleton _) a.val

section Orbit

variable {α : Type}

theorem cells_eq_map_get (ring : Ring α) :
    ring.cells = (List.finRange 8).map ring.get := by
  apply List.ext_getElem
  · rw [ring.length_cells, List.length_map, List.length_finRange]
  · intro n hn hn'
    simp [Ring.get]

/-- The values of a ring after a motion are its values rearranged. -/
theorem perm_cells_reindex (motion : Equiv.Perm (Fin 8)) (ring : Ring α) :
    (ring.reindex motion).cells.Perm ring.cells := by
  have hmoved : (ring.reindex motion).cells =
      ((List.finRange 8).map motion).map ring.get := by
    rw [List.map_map]
    rfl
  rw [hmoved, cells_eq_map_get ring]
  exact (Equiv.Perm.map_finRange_perm motion).map ring.get

/-- A list of eight places in which each occurs once is a motion. -/
theorem exists_motion_of_places {places : List (Fin 8)}
    (hplaces : places.Perm (List.finRange 8)) :
    ∃ motion : Equiv.Perm (Fin 8), places = (List.finRange 8).map motion := by
  have hlength : places.length = 8 := by
    rw [hplaces.length_eq, List.length_finRange]
  have hnodup : places.Nodup := hplaces.nodup_iff.2 (List.nodup_finRange 8)
  let source : Fin 8 → Fin 8 := fun place => places.get (place.cast hlength.symm)
  have hinjective : Function.Injective source := by
    intro i j hij
    exact Fin.cast_injective _ (hnodup.injective_get hij)
  refine ⟨Equiv.ofBijective source (Finite.injective_iff_bijective.1 hinjective),
    ?_⟩
  apply List.ext_getElem
  · rw [hlength, List.length_map, List.length_finRange]
  · intro n hn hn'
    simp [source]

/-- Two rings of which one is an arrangement of the other agree up to a
permutation of the places. -/
theorem exists_motion_of_perm {ring other : Ring α}
    (h : other.cells.Perm ring.cells) :
    ∃ motion : Equiv.Perm (Fin 8), other = ring.reindex motion := by
  rw [cells_eq_map_get ring] at h
  have hcomp : Relation.Comp (· = List.map ring.get ·) List.Perm other.cells
      (List.finRange 8) := by
    rw [List.eq_map_comp_perm]
    exact h
  obtain ⟨places, hcells, hplaces⟩ := hcomp
  obtain ⟨motion, rfl⟩ := exists_motion_of_places hplaces
  refine ⟨motion, ?_⟩
  have hother : other.cells = (ring.reindex motion).cells := by
    rw [hcells, List.map_map]
    rfl
  cases other
  cases hother
  rfl

theorem reindex_mul (ring : Ring α) (a b : Equiv.Perm (Fin 8)) :
    (ring.reindex a).reindex b = ring.reindex ⇑(a * b) :=
  Ring.reindex_reindex a b ring

theorem shift_eq_reindex_turn (ring : Ring α) (k : ℕ) :
    ring.shift k = ring.reindex (turn (Fin.ofNat 8 k)) :=
  rfl

theorem reflect_eq_reindex (ring : Ring α) :
    ring.reflect = ring.reindex reflection :=
  rfl

theorem reindex_one (ring : Ring α) :
    ring.reindex ⇑(1 : Equiv.Perm (Fin 8)) = ring :=
  Ring.ext_get fun place => Ring.get_reindex _ ring place

theorem turnedRings_eq_map (ring : Ring α) :
    turnedRings ring =
      ([0, 6, 4, 2] : List (Fin 8)).map fun a => ring.reindex (turn a) := by
  simp only [turnedRings, Ring.quarterTurn, shift_eq_reindex_turn,
    reindex_mul, turn_mul_turn, List.map_cons, List.map_nil, turn_zero,
    reindex_one]
  rfl

theorem mem_turnedRings_iff {ring other : Ring α} :
    other ∈ turnedRings ring ↔
      ∃ a, Even a ∧ other = ring.reindex (turn a) := by
  have heven : ∀ a : Fin 8, a ∈ ([0, 6, 4, 2] : List (Fin 8)) ↔ Even a := by
    intro a
    constructor
    · intro ha
      refine ⟨Fin.ofNat 8 (a.val / 2), ?_⟩
      revert a
      decide
    · rintro ⟨r, rfl⟩
      revert r
      decide
  simp only [turnedRings_eq_map, List.mem_map, heven, eq_comm]

theorem mem_turnedRings_quarterTurn_iff {ring other : Ring α} :
    other ∈ turnedRings ring.quarterTurn ↔
      ∃ a, Even a ∧ other = ring.reindex (turn a) := by
  rw [mem_turnedRings_iff, Ring.quarterTurn, shift_eq_reindex_turn]
  simp only [reindex_mul, turn_mul_turn]
  have hsix : Even (Fin.ofNat 8 6) := ⟨3, rfl⟩
  constructor
  · rintro ⟨a, ha, rfl⟩
    exact ⟨_, hsix.add ha, rfl⟩
  · rintro ⟨a, ha, rfl⟩
    refine ⟨-Fin.ofNat 8 6 + a, hsix.neg.add ha, ?_⟩
    rw [add_neg_cancel_left]

variable [DecidableEq α]

theorem mem_arrangedRings_iff {ring other : Ring α} :
    other ∈ arrangedRings ring ↔ other.cells.Perm ring.cells := by
  simp only [arrangedRings, List.mem_map, List.mem_attach, true_and]
  constructor
  · rintro ⟨cells, rfl⟩
    exact mem_arrangements_iff.1 cells.2
  · intro h
    exact ⟨⟨other.cells, mem_arrangements_iff.2 h⟩, rfl⟩

/-- The rings a symmetry makes of one ring are its images under the group of
the symmetry. -/
theorem mem_orbit_iff {symmetry : Symmetry} {ring other : Ring α} :
    other ∈ symmetry.orbit ring ↔
      ∃ motion ∈ symmetry.group, other = ring.reindex motion := by
  cases symmetry with
  | none =>
    simp only [orbit, List.mem_singleton, mem_group_none_iff, exists_eq_left,
      reindex_one]
  | permute =>
    rw [orbit, mem_arrangedRings_iff]
    constructor
    · intro h
      obtain ⟨motion, hmotion⟩ := exists_motion_of_perm h
      exact ⟨motion, mem_group_permute motion, hmotion⟩
    · rintro ⟨motion, _, rfl⟩
      exact perm_cells_reindex motion ring
  | rotate4 =>
    rw [orbit, List.mem_eraseDups, mem_turnedRings_iff]
    constructor
    · rintro ⟨a, ha, rfl⟩
      exact ⟨turn a, mem_group_rotate4_iff.2 ⟨a, ha, rfl⟩, rfl⟩
    · rintro ⟨motion, hmotion, rfl⟩
      obtain ⟨a, ha, rfl⟩ := mem_group_rotate4_iff.1 hmotion
      exact ⟨a, ha, rfl⟩
  | rotate4reflect =>
    rw [orbit, List.mem_eraseDups, List.mem_append,
      mem_turnedRings_quarterTurn_iff, mem_turnedRings_quarterTurn_iff]
    simp only [reflect_eq_reindex, reindex_mul, reflection_mul_turn]
    constructor
    · rintro (⟨a, ha, rfl⟩ | ⟨a, ha, rfl⟩)
      · exact ⟨_, mem_group_rotate4reflect_iff.2 ⟨a, ha, Or.inl rfl⟩, rfl⟩
      · exact ⟨_, mem_group_rotate4reflect_iff.2 ⟨-a, ha.neg, Or.inr rfl⟩, rfl⟩
    · rintro ⟨motion, hmotion, rfl⟩
      obtain ⟨a, ha, rfl | rfl⟩ := mem_group_rotate4reflect_iff.1 hmotion
      · exact Or.inl ⟨a, ha, rfl⟩
      · exact Or.inr ⟨-a, ha.neg, by rw [neg_neg]⟩
  | rotate8 =>
    rw [orbit, List.mem_eraseDups]
    simp only [List.mem_map, List.mem_range, shift_eq_reindex_turn]
    constructor
    · rintro ⟨k, _, rfl⟩
      exact ⟨_, mem_group_rotate8_iff.2 ⟨_, rfl⟩, rfl⟩
    · rintro ⟨motion, hmotion, rfl⟩
      obtain ⟨a, rfl⟩ := mem_group_rotate8_iff.1 hmotion
      refine ⟨a.val, a.isLt, ?_⟩
      rw [Fin.ofNat_val_eq_self]

end Orbit

end Symmetry

namespace Clause

/-- The clauses that one clause stands for are its images under the group of
the symmetry, which moves the ring alone. -/
theorem mem_expand_iff {clause other : Clause} {symmetry : Symmetry} :
    other ∈ clause.expand symmetry ↔
      ∃ motion ∈ symmetry.group,
        other = clause.withRing (clause.ring.reindex motion) := by
  simp only [expand, List.mem_map, Symmetry.mem_orbit_iff]
  constructor
  · rintro ⟨_, ⟨motion, hmotion, rfl⟩, rfl⟩
    exact ⟨motion, hmotion, rfl⟩
  · rintro ⟨motion, hmotion, rfl⟩
    exact ⟨_, ⟨motion, hmotion, rfl⟩, rfl⟩

end Clause

end Cellular
