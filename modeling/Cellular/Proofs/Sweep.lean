import Mathlib.Data.BitVec
import Cellular.Proofs.Configurations
import Cellular.Proofs.Odometer

/-!
# A sweep goes through all configurations

Nine wheels of one size count through the configurations in the order of their numbers:
each configuration of states below the number of states is met once, in lexicographic
order from the center on, and after the last one there is nothing any more.
-/

namespace Cellular

namespace Packing

variable {p : Packing}

/-- The number of configurations, raised to its power in words of 128 bits. -/
def configurationCountWord (p : Packing) : BitVec 128 :=
  BitVec.ofNat 128 p.stateCount ^ 9

/-! ## From one configuration to the next -/

theorem next_of_step {c d : Configuration} {wrapped : Bool}
    (h : Counting.step (List.replicate 9 p.stateCount) c.states = (d.states, wrapped)) :
    Sweep.next ⟨p.stateCount, some c⟩ =
      (some c, ⟨p.stateCount, if wrapped then none else some d⟩) := by
  rw [Sweep.next]
  simp only [h, Configuration.ofStates?_states]

/-- Each configuration in the list is followed by the one that its numeral steps to. -/
theorem isChain_configurations (p : Packing) :
    p.configurations.IsChain fun c d =>
      Counting.step (List.replicate 9 p.stateCount) c.states = (d.states, false) := by
  have hchain := Counting.isChain_indexTuples (List.replicate 9 p.stateCount)
  rwa [← map_states_configurations, List.isChain_map] at hchain

/-- The list begins where a sweep begins. -/
theorem exists_configurations_eq_cons (hpos : 0 < p.stateCount) :
    ∃ first rest, p.configurations = first :: rest ∧
      p.sweep = ⟨p.stateCount, some first⟩ := by
  have hsizes : ∀ size ∈ List.replicate 9 p.stateCount, 0 < size := by
    intro size hsize
    rwa [List.eq_of_mem_replicate hsize]
  have hhead := Counting.head?_indexTuples hsizes
  rw [← map_states_configurations, List.head?_map, Option.map_eq_some_iff,
    List.length_replicate] at hhead
  obtain ⟨first, hfirst, hstates⟩ := hhead
  obtain ⟨rest, hrest⟩ := List.head?_eq_some_iff.1 hfirst
  refine ⟨first, rest, hrest, ?_⟩
  rw [sweep, ← hstates, Configuration.ofStates?_states]

/-- From the last configuration a sweep goes nowhere. -/
theorem next_of_getLast? {last : Configuration} (h : p.configurations.getLast? = some last) :
    Sweep.next ⟨p.stateCount, some last⟩ = (some last, ⟨p.stateCount, none⟩) := by
  have hlast : (indexTuples (List.replicate 9 p.stateCount)).getLast? = some last.states := by
    rw [← map_states_configurations, List.getLast?_map, h, Option.map_some]
  rw [Sweep.next]
  simp only [Counting.step_of_getLast? hlast, if_true]

/-- A sweep meets the configurations in the order of their numbers. -/
theorem draws_sweep (hpos : 0 < p.stateCount) :
    Draws Sweep.next p.sweep p.configurations := by
  obtain ⟨first, rest, hlist, hsweep⟩ := exists_configurations_eq_cons hpos
  have hdraws : Draws Sweep.next ⟨p.stateCount, some first⟩ ((first :: rest).map id) := by
    apply draws_of_isChain fun c => Sweep.mk p.stateCount (some c)
    · rw [← hlist]
      exact p.isChain_configurations.imp fun c d => next_of_step
    · intro last hlast
      rw [← hlist] at hlast
      exact ⟨_, next_of_getLast? hlast, rfl⟩
  rwa [List.map_id, ← hlist, ← hsweep] at hdraws

/-! ## How many there are -/

theorem configurationCount_le (hgreatest : p.stateCount ≤ 256) :
    p.configurationCount ≤ 2 ^ 72 := by
  calc p.configurationCount = p.stateCount ^ 9 := p.configurationCount_eq
    _ ≤ 256 ^ 9 := Nat.pow_le_pow_left hgreatest 9
    _ = 2 ^ 72 := by decide

theorem toNat_configurationCountWord (hgreatest : p.stateCount ≤ 256) :
    p.configurationCountWord.toNat = p.configurationCount := by
  have hcount : p.configurationCount < 2 ^ 128 :=
    Nat.lt_of_le_of_lt (configurationCount_le hgreatest) (by decide)
  rw [configurationCountWord, ← BitVec.natCast_eq_ofNat, ← Nat.cast_pow,
    ← configurationCount_eq, BitVec.natCast_eq_ofNat, BitVec.toNat_ofNat,
    Nat.mod_eq_of_lt hcount]

/-- **A sweep goes through all configurations.**  It meets each configuration of states
below the number of states once, in lexicographic order from the center on, and after
the last one nothing any more.  As many are met as the power of the number of states
tells, and words of 128 bits have room for that power. -/
theorem sweep_lists_configurations (p : Packing) (hleast : 2 ≤ p.stateCount)
    (hgreatest : p.stateCount ≤ 256) :
    Draws Sweep.next p.sweep p.configurations ∧
    (p.configurations.Pairwise fun c d => c.states < d.states) ∧
    (∀ c, c ∈ p.configurations ↔ ∀ s ∈ c.states, s < p.stateCount) ∧
    p.configurations.length = p.configurationCount ∧
    p.configurationCount = p.stateCount ^ 9 ∧
    p.configurationCount < 2 ^ 128 ∧
    p.configurationCountWord.toNat = p.configurationCount := by
  have hcount := configurationCount_le hgreatest
  exact ⟨draws_sweep (by omega), p.pairwise_configurations, fun _ => mem_configurations_iff,
    p.length_configurations, p.configurationCount_eq, by omega,
    toNat_configurationCountWord hgreatest⟩

/-- With the greatest number of states, two carries follow one another between the calls
65535 and 65536, and there is nothing after the last configuration. -/
theorem greatest_sweep_lists_configurations :
    2 ≤ 256 ∧ 256 ≤ 256 ∧
    draw Sweep.next 65535 (sweep ⟨256⟩) = some ⟨0, ⟨[0, 0, 0, 0, 0, 0, 255, 255], rfl⟩⟩ ∧
    draw Sweep.next 65536 (sweep ⟨256⟩) = some ⟨0, ⟨[0, 0, 0, 0, 0, 1, 0, 0], rfl⟩⟩ ∧
    draw Sweep.next (2 ^ 72) (sweep ⟨256⟩) = none := by
  obtain ⟨hdraws, -, -, hlength, -, -, -⟩ :=
    sweep_lists_configurations ⟨256⟩ (by decide) (by decide)
  have hat : ∀ n < 256 ^ 9,
      draw Sweep.next n (sweep ⟨256⟩) = some (configurationAt ⟨256⟩ n) := by
    intro n hn
    rw [hdraws n, configurations, List.getElem?_map, configurationCount_eq,
      List.getElem?_range hn, Option.map_some]
  refine ⟨by decide, by decide, ?_, ?_, ?_⟩
  · rw [hat _ (by decide)]
    rfl
  · rw [hat _ (by decide)]
    rfl
  · rw [hdraws, List.getElem?_eq_none]
    rw [hlength, configurationCount_eq]
    decide

end Packing

end Cellular
