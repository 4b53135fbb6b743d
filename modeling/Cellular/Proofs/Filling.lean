import Cellular.Proofs.Configurations
import Cellular.Proofs.Validity
import Cellular.Proofs.Writes

/-!
# What a build starts from

Before any clause is written, a table is either blank or maps every configuration
to its own center.  A build that succeeds writes the transitions of a well-formed
rule into such a table.
-/

namespace Cellular

namespace Rule

variable {rule : Rule} {settings : Settings} {table : Table} {c : Configuration}

theorem packing_identityTable (rule : Rule) : rule.identityTable.packing = rule.packing :=
  Table.packing_writeAll _ _

theorem packing_of_initialTable (h : rule.initialTable settings = .ok table) :
    table.packing = rule.packing := by
  rw [initialTable] at h
  split at h
  · cases h
    rfl
  · simp only at h
    split at h
    · cases h
      exact packing_identityTable rule
    · cases h

theorem next?_blankTable (rule : Rule) (c : Configuration) :
    rule.blankTable.next? c = none :=
  Std.ExtTreeMap.getElem?_empty

/-- The table that is filled in maps the configurations that there are to their
centers, and nothing else. -/
theorem next?_identityTable (hc : rule.packing.Fits c) :
    rule.identityTable.next? c =
      if ∀ s ∈ c.states, s < rule.stateCount then some c.center else none := by
  have hmem : ∀ d, d ∈ rule.packing.configurations ↔
      ∀ s ∈ d.states, s < rule.stateCount :=
    fun d => Packing.mem_configurations_iff
  have hfits : ∀ d ∈ rule.packing.configurations, rule.packing.Fits d :=
    fun d hd => Packing.fits_of_lt_stateCount ((hmem d).1 hd)
  have hblank : rule.blankTable.packing.Fits c := hc
  rw [identityTable]
  split
  · rename_i hstates
    obtain ⟨before, after, hsplit⟩ := List.append_of_mem ((hmem c).2 hstates)
    have hnodup := rule.packing.nodup_configurations
    rw [hsplit, List.nodup_middle, List.nodup_cons, List.mem_append, not_or] at hnodup
    rw [hsplit, List.map_append, List.map_cons]
    apply Table.next?_writeAll_of_last hblank
    · intro w hw
      obtain ⟨d, hd, rfl⟩ := List.mem_map.1 hw
      exact hfits d (by simp [hsplit, hd])
    · rintro w hw rfl
      obtain ⟨d, hd, heq⟩ := List.mem_map.1 hw
      exact hnodup.1.2 (by rwa [← heq])
  · rename_i hstates
    rw [← next?_blankTable rule c]
    apply Table.next?_writeAll_of_forall_ne hblank
    · intro w hw
      obtain ⟨d, hd, rfl⟩ := List.mem_map.1 hw
      exact hfits d hd
    · rintro w hw rfl
      obtain ⟨d, hd, rfl⟩ := List.mem_map.1 hw
      exact hstates ((hmem d).1 hd)

/-- Before any clause is written, a configuration is mapped to its center if the
table is filled in, and is a gap otherwise. -/
theorem next?_of_initialTable (h : rule.initialTable settings = .ok table)
    (hc : rule.packing.Fits c) :
    table.next? c =
      if settings.fill = .identity ∧ ∀ s ∈ c.states, s < rule.stateCount then
        some c.center
      else none := by
  rw [initialTable] at h
  split at h
  · rename_i hfill
    cases h
    rw [next?_blankTable, hfill, if_neg]
    rintro ⟨hidentity, -⟩
    cases hidentity
  · rename_i hfill
    simp only at h
    split at h
    · cases h
      simp only [next?_identityTable hc, hfill, true_and]
    · cases h

/-- There is a table to start from unless there are too many configurations to
fill in. -/
theorem exists_initialTable (rule : Rule)
    (hroom : settings.fill = .identity →
      rule.packing.configurationCount ≤ settings.fillLimit) :
    ∃ initial, rule.initialTable settings = .ok initial := by
  rw [initialTable]
  cases hfill : settings.fill with
  | unmapped => exact ⟨_, rfl⟩
  | identity => exact ⟨_, if_pos (hroom hfill)⟩

/-- A build that succeeds has written all transitions of a well-formed rule. -/
theorem build_eq_ok_iff :
    rule.build settings = .ok table ↔ rule.validate = .ok () ∧
      ∃ initial, rule.initialTable settings = .ok initial ∧
        table = initial.writeAll rule.allTransitions := by
  rw [build_eq, validate_eq_ok_iff]
  cases rule.fault? with
  | some fault => simp
  | none =>
    cases rule.initialTable settings with
    | error e => simp [Except.map]
    | ok initial => simp [Except.map, eq_comm]

theorem packing_of_build (h : rule.build settings = .ok table) :
    table.packing = rule.packing := by
  obtain ⟨-, initial, hinitial, rfl⟩ := build_eq_ok_iff.1 h
  rw [Table.packing_writeAll, packing_of_initialTable hinitial]

end Rule

end Cellular
