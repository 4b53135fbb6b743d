import Mathlib.Algebra.Group.Subgroup.Finite
import Mathlib.Data.Fintype.Perm
import Mathlib.GroupTheory.Index
import Cellular.Proofs.Arrangement
import Cellular.Proofs.Symmetry

/-!
# Expansion of clauses

A clause stands for the images of its ring under a group of motions.  The images are
listed without repetition, so their number divides that of the motions.  Of the motions
that lead to one image the first decides where it stands: later clauses overwrite
earlier ones, so the order in which the motions are made is told as well.
-/

open scoped Nat

namespace Cellular

/-- The ring whose values a motion has moved. -/
def Ring.moved {α : Type} (ring : Ring α) (motion : Equiv.Perm (Fin 8)) : Ring α :=
  ring.reindex motion

/-- The clause whose ring a motion has moved. -/
def Clause.moved (clause : Clause) (motion : Equiv.Perm (Fin 8)) : Clause :=
  clause.withRing (clause.ring.moved motion)

namespace Symmetry

/-! ## The motions in order -/

/-- The places that a motion takes the values from. -/
def places (motion : Equiv.Perm (Fin 8)) : List (Fin 8) :=
  (List.finRange 8).map motion

/-- One motion stands before another in a list. -/
def InOrder (motions : List (Equiv.Perm (Fin 8))) (a b : Equiv.Perm (Fin 8)) : Prop :=
  motions.idxOf a < motions.idxOf b

/-- The turns by no, one, two and three quarters. -/
def quarterTurns : List (Equiv.Perm (Fin 8)) :=
  ([0, 6, 4, 2] : List (Fin 8)).map turn

/-- The turns by one to four quarters, first alone and then after a reflection. -/
def reflectedTurns : List (Equiv.Perm (Fin 8)) :=
  ([6, 4, 2, 0] : List (Fin 8)).map turn ++
    ([6, 4, 2, 0] : List (Fin 8)).map fun a => reflection * turn a

/-- The turns by any number of places. -/
def shifts : List (Equiv.Perm (Fin 8)) :=
  (List.finRange 8).map turn

/-- The order in which the motions of a symmetry are made.  Arrangements come in the
dictionary order of the places that the values are taken from. -/
def Precedes : Symmetry → Equiv.Perm (Fin 8) → Equiv.Perm (Fin 8) → Prop
  | none => InOrder [1]
  | permute => fun a b => places a < places b
  | rotate4 => InOrder quarterTurns
  | rotate4reflect => InOrder reflectedTurns
  | rotate8 => InOrder shifts

theorem injective_places : Function.Injective places := by
  intro a b heq
  ext place : 1
  exact List.map_inj_left.1 heq place (List.mem_finRange place)

theorem exists_places_iff {choice : List (Fin 8)} :
    choice.Perm (List.finRange 8) ↔ ∃ motion ∈ permute.group, places motion = choice := by
  constructor
  · intro hperm
    obtain ⟨motion, rfl⟩ := exists_motion_of_places hperm
    exact ⟨motion, mem_group_permute motion, rfl⟩
  · rintro ⟨motion, -, rfl⟩
    exact Equiv.Perm.map_finRange_perm motion

theorem pairwise_inOrder {motions : List (Equiv.Perm (Fin 8))} (hnodup : motions.Nodup) :
    motions.Pairwise (InOrder motions) := by
  rw [List.pairwise_iff_getElem]
  intro i j hi hj hij
  rwa [InOrder, hnodup.idxOf_getElem, hnodup.idxOf_getElem]

theorem not_precedes_of_precedes {symmetry : Symmetry} {a b : Equiv.Perm (Fin 8)}
    (hprecedes : symmetry.Precedes a b) : ¬ symmetry.Precedes b a := by
  cases symmetry with
  | permute => exact lt_asymm hprecedes
  | none | rotate4 | rotate4reflect | rotate8 => exact Nat.lt_asymm hprecedes

/-- But for the quarter turns with reflections, no motion is made before the identity. -/
theorem not_precedes_one {symmetry : Symmetry} (hne : symmetry ≠ rotate4reflect)
    (motion : Equiv.Perm (Fin 8)) : ¬ symmetry.Precedes motion 1 := by
  have hhead : ∀ {motions : List (Equiv.Perm (Fin 8))}, motions.head? = some 1 →
      ¬ InOrder motions motion 1 := by
    intro motions hhead
    obtain ⟨rest, rfl⟩ := List.head?_eq_some_iff.1 hhead
    rw [InOrder, List.idxOf_cons_self]
    exact Nat.not_lt_zero _
  cases symmetry with
  | none => exact hhead rfl
  | permute =>
    have hone : places 1 = List.finRange 8 := List.map_id _
    intro hlt
    rw [Precedes, hone] at hlt
    exact not_lt_of_perm (List.pairwise_le_finRange 8)
      (Equiv.Perm.map_finRange_perm motion) hlt
  | rotate4 => exact hhead (congrArg some turn_zero)
  | rotate4reflect => exact absurd rfl hne
  | rotate8 => exact hhead (congrArg some turn_zero)

/-! ## The groups -/

theorem even_iff_mem {a : Fin 8} : Even a ↔ a ∈ ([6, 4, 2, 0] : List (Fin 8)) := by
  rw [Even]
  revert a
  decide

theorem nodup_quarterTurns : quarterTurns.Nodup := by decide

theorem nodup_reflectedTurns : reflectedTurns.Nodup := by decide

theorem nodup_shifts : shifts.Nodup := by decide

theorem mem_quarterTurns_iff {motion : Equiv.Perm (Fin 8)} :
    motion ∈ quarterTurns ↔ motion ∈ rotate4.group := by
  have hperm : ([0, 6, 4, 2] : List (Fin 8)).Perm [6, 4, 2, 0] := by decide
  rw [mem_group_rotate4_iff, quarterTurns, List.mem_map]
  simp only [even_iff_mem, hperm.mem_iff, eq_comm]

theorem mem_reflectedTurns_iff {motion : Equiv.Perm (Fin 8)} :
    motion ∈ reflectedTurns ↔ motion ∈ rotate4reflect.group := by
  rw [mem_group_rotate4reflect_iff, reflectedTurns, List.mem_append, List.mem_map,
    List.mem_map]
  simp only [← even_iff_mem, reflection_mul_turn]
  constructor
  · rintro (⟨a, ha, rfl⟩ | ⟨a, ha, rfl⟩)
    · exact ⟨a, ha, Or.inl rfl⟩
    · exact ⟨-a, ha.neg, Or.inr rfl⟩
  · rintro ⟨a, ha, rfl | rfl⟩
    · exact Or.inl ⟨a, ha, rfl⟩
    · exact Or.inr ⟨-a, ha.neg, by rw [neg_neg]⟩

theorem mem_shifts_iff {motion : Equiv.Perm (Fin 8)} :
    motion ∈ shifts ↔ motion ∈ rotate8.group := by
  rw [mem_group_rotate8_iff, shifts, List.mem_map]
  simp only [List.mem_finRange, true_and, eq_comm]

/-- The number of motions of a symmetry. -/
def order : Symmetry → ℕ
  | none => 1
  | permute => 40320
  | rotate4 => 4
  | rotate4reflect => 8
  | rotate8 => 8

theorem card_group (symmetry : Symmetry) : Nat.card symmetry.group = symmetry.order := by
  have hlist : ∀ {group : Subgroup (Equiv.Perm (Fin 8))}
      {motions : List (Equiv.Perm (Fin 8))}, motions.Nodup →
      (∀ {motion}, motion ∈ motions ↔ motion ∈ group) →
      Nat.card group = motions.length := by
    intro group motions hnodup hmem
    rw [← List.toFinset_card_of_nodup hnodup]
    exact Nat.subtype_card _ fun motion => List.mem_toFinset.trans hmem
  cases symmetry with
  | none =>
    rw [group, generators, Subgroup.closure_empty, Subgroup.card_bot, order]
  | permute =>
    rw [group, generators, Subgroup.closure_univ, Subgroup.card_top,
      Nat.card_eq_fintype_card, Fintype.card_perm, Fintype.card_fin, order]
    rfl
  | rotate4 => exact hlist nodup_quarterTurns mem_quarterTurns_iff
  | rotate4reflect => exact hlist nodup_reflectedTurns mem_reflectedTurns_iff
  | rotate8 => exact hlist nodup_shifts mem_shifts_iff

section Orbit

variable {α : Type}

/-- Motions move rings from the left when they are undone. -/
instance instMulActionRing : MulAction (Equiv.Perm (Fin 8)) (Ring α) where
  smul motion ring := ring.reindex ⇑motion⁻¹
  one_smul ring := reindex_one ring
  mul_smul a b ring := by
    change ring.reindex ⇑(a * b)⁻¹ = (ring.reindex ⇑b⁻¹).reindex ⇑a⁻¹
    rw [reindex_mul, mul_inv_rev]

theorem mem_orbit_group_iff {symmetry : Symmetry} {ring other : Ring α} :
    other ∈ MulAction.orbit symmetry.group ring ↔
      ∃ motion ∈ symmetry.group, other = ring.reindex motion := by
  constructor
  · rintro ⟨⟨motion, hmotion⟩, rfl⟩
    exact ⟨motion⁻¹, Subgroup.inv_mem _ hmotion, rfl⟩
  · rintro ⟨motion, hmotion, rfl⟩
    refine ⟨⟨motion⁻¹, Subgroup.inv_mem _ hmotion⟩, ?_⟩
    change ring.reindex ⇑(motion⁻¹)⁻¹ = ring.reindex motion
    rw [inv_inv]

theorem turnedRings_quarterTurn_eq_map (ring : Ring α) :
    turnedRings ring.quarterTurn =
      ([6, 4, 2, 0] : List (Fin 8)).map fun a => ring.reindex (turn a) := by
  rw [turnedRings_eq_map, Ring.quarterTurn, shift_eq_reindex_turn]
  simp only [reindex_mul, turn_mul_turn]
  rfl

variable [DecidableEq α]

/-- What is moved one motion after the other and listed once each is listed by the first
motions. -/
theorem listedByFirst_map {group : Subgroup (Equiv.Perm (Fin 8))}
    {motions : List (Equiv.Perm (Fin 8))} (hnodup : motions.Nodup)
    (hmem : ∀ {motion}, motion ∈ motions ↔ motion ∈ group) (ring : Ring α)
    {listing : List (Ring α)}
    (hlisting : listing = (motions.map ring.moved).eraseDups) :
    ListedByFirst (InOrder motions) group ring.moved listing := by
  have hgroup : {motion | motion ∈ motions} = (group : Set (Equiv.Perm (Fin 8))) := by
    ext motion
    exact hmem
  rw [hlisting, ← hgroup]
  exact listedByFirst_eraseDups _ (pairwise_inOrder hnodup)

theorem listedByFirst_arrangedRings (ring : Ring α) :
    ListedByFirst permute.Precedes permute.group ring.moved
      (arrangedRings ring) := by
  have hcells : Function.Injective (Ring.cells (α := α)) := by
    rintro ⟨cells, _⟩ ⟨others, _⟩ rfl
    rfl
  have harranged : (arrangedRings ring).map Ring.cells =
      arrangementsOf 8 ((List.finRange 8).map ring.get) := by
    rw [← cells_eq_map_get, ← ring.length_cells, ← arrangements, arrangedRings,
      List.map_map]
    exact List.attach_map_subtype_val _
  have hmoved : Ring.cells ∘ ring.moved =
      List.map ring.get ∘ places := by
    funext motion
    exact List.map_map.symm
  rw [← ListedByFirst.map_iff hcells, harranged, hmoved]
  exact (listedByFirst_arrangementsOf ring.get (List.pairwise_lt_finRange 8)
    List.length_finRange).comap injective_places fun _ => exists_places_iff

/-- The rings that a symmetry makes of one ring are listed by the first motions. -/
theorem listedByFirst_orbit (symmetry : Symmetry) (ring : Ring α) :
    ListedByFirst symmetry.Precedes symmetry.group ring.moved
      (symmetry.orbit ring) := by
  cases symmetry with
  | none =>
    refine listedByFirst_map (List.nodup_singleton 1) ?_ ring ?_
    · exact List.mem_singleton.trans mem_group_none_iff.symm
    · rw [List.map_singleton, Ring.moved, reindex_one]
      rfl
  | permute => exact listedByFirst_arrangedRings ring
  | rotate4 =>
    refine listedByFirst_map nodup_quarterTurns mem_quarterTurns_iff ring ?_
    rw [orbit, turnedRings_eq_map, quarterTurns, List.map_map]
    rfl
  | rotate4reflect =>
    refine listedByFirst_map nodup_reflectedTurns mem_reflectedTurns_iff ring ?_
    rw [orbit, turnedRings_quarterTurn_eq_map, turnedRings_quarterTurn_eq_map,
      reflectedTurns, List.map_append, List.map_map, List.map_map]
    rfl
  | rotate8 =>
    refine listedByFirst_map nodup_shifts mem_shifts_iff ring ?_
    rfl

theorem nodup_orbit (symmetry : Symmetry) (ring : Ring α) : (symmetry.orbit ring).Nodup :=
  (listedByFirst_orbit symmetry ring).nodup fun _ _ => not_precedes_of_precedes

/-- Values that are told apart by their images are rearranged as the images are. -/
theorem orbit_map {β : Type} [DecidableEq β] {f : α → β} {ring : Ring α}
    (hf : Set.InjOn f {v | v ∈ ring.cells}) (symmetry : Symmetry) :
    symmetry.orbit (ring.map f) = (symmetry.orbit ring).map (Ring.map f) := by
  have hmoved : ∀ motion, (ring.map f).moved motion = (ring.moved motion).map f :=
    fun motion => (Ring.map_reindex f motion ring).symm
  have hget : ∀ place, ring.get place ∈ ring.cells := fun place => List.getElem_mem _
  refine (listedByFirst_orbit symmetry ring).eq_map
    (listedByFirst_orbit symmetry (ring.map f)) (fun _ _ => not_precedes_of_precedes)
    (fun motion hmotion => mem_orbit_iff.2 ⟨motion, hmotion, rfl⟩)
    (fun motion hmotion => mem_orbit_iff.2 ⟨motion, hmotion, rfl⟩) hmoved fun a b heq => ?_
  rw [hmoved, hmoved] at heq
  apply Ring.ext_get
  intro place
  have hplace := congrArg (fun moved => Ring.get moved place) heq
  simp only [Ring.moved, Ring.get_map, Ring.get_reindex] at hplace ⊢
  exact hf (hget _) (hget _) hplace

/-- The motions of a symmetry fall into as many classes of equal size as there are
rings. -/
theorem length_orbit_dvd (symmetry : Symmetry) (ring : Ring α) :
    (symmetry.orbit ring).length ∣ Nat.card symmetry.group := by
  have horbit : MulAction.orbit symmetry.group ring = (symmetry.orbit ring).toFinset := by
    ext other
    rw [mem_orbit_group_iff, Finset.mem_coe, List.mem_toFinset, mem_orbit_iff]
  rw [← List.toFinset_card_of_nodup (nodup_orbit symmetry ring), ← Set.ncard_coe_finset,
    ← horbit, ← MulAction.index_stabilizer]
  exact Subgroup.index_dvd_card _

/-- Equal values can be exchanged, so the arrangements of a ring are as many as the
factorials of the multiplicities leave. -/
theorem length_orbit_permute_mul (ring : Ring α) :
    (permute.orbit ring).length *
      ∏ value ∈ ring.cells.toFinset, (ring.cells.count value)! = 8! := by
  have hkinds : ∀ value ∈ ring.cells, value ∈ ring.cells.toFinset :=
    fun _ => List.mem_toFinset.2
  rw [orbit, arrangedRings, List.length_map, List.length_attach, arrangements,
    ring.length_cells]
  exact length_arrangementsOf_mul ring.length_cells hkinds

end Orbit

end Symmetry

namespace Clause

theorem injective_withRing (clause : Clause) : Function.Injective clause.withRing :=
  fun _ _ heq => congrArg Clause.ring heq

theorem listedByFirst_expand (clause : Clause) (symmetry : Symmetry) :
    ListedByFirst symmetry.Precedes symmetry.group clause.moved
      (clause.expand symmetry) :=
  (ListedByFirst.map_iff clause.injective_withRing).2
    (Symmetry.listedByFirst_orbit symmetry clause.ring)

/-- **A clause is expanded to its orbit.**  Its images under the motions of the symmetry
are listed once each, in the order of the first motions that lead to them; so the clause
itself comes first unless the symmetry makes the identity late.  The ring alone is moved.
The number of images divides that of the motions, and for arrangements it is the number
of ways to arrange eight fields of which some are equal. -/
theorem expand_lists_orbit (clause : Clause) (symmetry : Symmetry) :
    (clause.expand symmetry).Nodup ∧
    (∀ other ∈ clause.expand symmetry, other.center = clause.center ∧
      other.next = clause.next ∧ other.line = clause.line) ∧
    (∀ ring, (∃ other ∈ clause.expand symmetry, other.ring = ring) ↔
      ∃ motion ∈ symmetry.group, ring = clause.ring.reindex motion) ∧
    ListedByFirst symmetry.Precedes symmetry.group clause.moved (clause.expand symmetry) ∧
    (symmetry ≠ .rotate4reflect → (clause.expand symmetry).head? = some clause) ∧
    ((clause.expand symmetry).length ∣ Nat.card symmetry.group ∧
      Nat.card symmetry.group = symmetry.order) ∧
    (clause.expand .permute).length *
      ∏ field ∈ clause.ring.cells.toFinset, (clause.ring.cells.count field)! = 8! := by
  have hlisted := clause.listedByFirst_expand symmetry
  refine ⟨hlisted.nodup fun _ _ => Symmetry.not_precedes_of_precedes, ?_, ?_, hlisted, ?_,
    ⟨?_, Symmetry.card_group symmetry⟩, ?_⟩
  · intro other hother
    obtain ⟨motion, -, rfl⟩ := mem_expand_iff.1 hother
    exact ⟨rfl, rfl, rfl⟩
  · intro ring
    constructor
    · rintro ⟨other, hother, rfl⟩
      obtain ⟨motion, hmotion, rfl⟩ := mem_expand_iff.1 hother
      exact ⟨motion, hmotion, rfl⟩
    · rintro ⟨motion, hmotion, rfl⟩
      exact ⟨_, mem_expand_iff.2 ⟨motion, hmotion, rfl⟩, rfl⟩
  · intro hne
    have hone : clause.moved 1 = clause := congrArg clause.withRing (Symmetry.reindex_one _)
    have hmem : clause.moved 1 ∈ clause.expand symmetry :=
      mem_expand_iff.2 ⟨1, Subgroup.one_mem _, rfl⟩
    rw [hlisted.head?_eq (Subgroup.one_mem _) hmem (Symmetry.not_precedes_one hne), hone]
  · rw [expand, List.length_map]
    exact Symmetry.length_orbit_dvd symmetry clause.ring
  · rw [expand, List.length_map]
    exact Symmetry.length_orbit_permute_mul clause.ring

end Clause

end Cellular
