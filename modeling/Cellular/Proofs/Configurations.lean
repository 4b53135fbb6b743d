import Mathlib.Algebra.Group.Nat.Defs
import Mathlib.Data.List.Nodup
import Cellular.Proofs.Assignment
import Cellular.Table.Packing

/-!
# The configurations in order

The configurations of a packing are numbered by their states, read as numerals.
Counting up therefore lists them in lexicographic order of their states, the
center first, and each configuration of states below the number of states occurs
once.
-/

namespace Cellular

namespace Configuration

theorem length_states (c : Configuration) : c.states.length = 9 := by
  rw [states, List.length_cons, c.ring.length_cells]

theorem states_inj {c d : Configuration} : c.states = d.states ↔ c = d := by
  constructor
  · intro h
    rcases c with ⟨center, ⟨cells, hcells⟩⟩
    rcases d with ⟨otherCenter, ⟨otherCells, hotherCells⟩⟩
    simp only [states, List.cons.injEq] at h
    obtain ⟨rfl, rfl⟩ := h
    rfl
  · intro h
    rw [h]

end Configuration

namespace Packing

variable {p : Packing}

theorem digits_succ (base count n : ℕ) :
    digits base (count + 1) n = n / base ^ count % base :: digits base count n := rfl

theorem configurationCount_eq (p : Packing) : p.configurationCount = p.stateCount ^ 9 := rfl

/-- The last digits of a number do not see what comes before them. -/
theorem digits_mul_add (base count k n : ℕ) :
    digits base count (k * base ^ count + n) = digits base count n := by
  induction count generalizing k with
  | zero => rfl
  | succ count ih =>
    have hsplit : k * base ^ (count + 1) + n = k * base * base ^ count + n := by
      rw [Nat.pow_succ, Nat.mul_comm (base ^ count) base, Nat.mul_assoc]
    have hhead :
        (k * base * base ^ count + n) / base ^ count % base =
          n / base ^ count % base := by
      rcases Nat.eq_zero_or_pos (base ^ count) with hzero | hpos
      · rw [hzero, Nat.mul_zero, Nat.zero_add]
      · rw [Nat.mul_comm (k * base), Nat.mul_add_div hpos, Nat.mul_add_mod_self_right]
    rw [digits_succ, digits_succ, hsplit, ih, hhead]

theorem digits_succ_of_lt {base count i n : ℕ} (hi : i < base) (hn : n < base ^ count) :
    digits base (count + 1) (i * base ^ count + n) = i :: digits base count n := by
  have hpos : 0 < base ^ count := Nat.lt_of_le_of_lt (Nat.zero_le n) hn
  have hhead : (i * base ^ count + n) / base ^ count = i := by
    rw [Nat.mul_comm, Nat.mul_add_div hpos, Nat.div_eq_of_lt hn, Nat.add_zero]
  rw [digits_succ, digits_mul_add, hhead, Nat.mod_eq_of_lt hi]

private theorem range_mul (a b : ℕ) :
    List.range (a * b) =
      (List.range a).flatMap fun i => (List.range b).map (i * b + ·) := by
  induction a with
  | zero => simp
  | succ a ih =>
    rw [Nat.succ_mul, List.range_add, ih, List.range_succ, List.flatMap_append,
      List.flatMap_singleton]

/-- Counting up, the numerals come in the order of the tuples of digits. -/
theorem map_digits_range (base count : ℕ) :
    (List.range (base ^ count)).map (digits base count) =
      indexTuples (List.replicate count base) := by
  induction count with
  | zero => rfl
  | succ count ih =>
    rw [Nat.pow_succ, Nat.mul_comm, range_mul, List.map_flatMap, List.replicate_succ,
      indexTuples, ← ih]
    apply List.flatMap_congr
    intro i hi
    rw [List.map_map, List.map_map]
    apply List.map_congr_left
    intro n hn
    exact digits_succ_of_lt (List.mem_range.1 hi) (List.mem_range.1 hn)

theorem map_states_configurations (p : Packing) :
    p.configurations.map Configuration.states =
      indexTuples (List.replicate 9 p.stateCount) := by
  rw [← map_digits_range, configurations, configurationCount_eq, List.map_map]
  rfl

/-- The configurations are listed in strictly ascending order of their states. -/
theorem pairwise_configurations (p : Packing) :
    p.configurations.Pairwise fun c d => c.states < d.states := by
  have hpairwise := pairwise_indexTuples (List.replicate 9 p.stateCount)
  rwa [← map_states_configurations, List.pairwise_map] at hpairwise

theorem nodup_configurations (p : Packing) : p.configurations.Nodup := by
  refine p.pairwise_configurations.imp ?_
  rintro c _ hlt rfl
  exact List.lt_irrefl _ hlt

/-- The configurations that are listed are those of states below the number of
states. -/
theorem mem_configurations_iff {c : Configuration} :
    c ∈ p.configurations ↔ ∀ s ∈ c.states, s < p.stateCount := by
  have hmem : c ∈ p.configurations ↔
      c.states ∈ p.configurations.map Configuration.states := by
    simp only [List.mem_map, Configuration.states_inj, exists_eq_right]
  have hreplicate : List.replicate 9 p.stateCount =
      c.states.map fun _ => p.stateCount := by
    rw [List.map_const', c.length_states]
  rw [hmem, map_states_configurations, mem_indexTuples_iff, hreplicate,
    List.forall₂_map_right_iff, List.forall₂_same]

theorem length_configurations (p : Packing) :
    p.configurations.length = p.configurationCount := by
  rw [configurations, List.length_map, List.length_range]

end Packing

end Cellular
