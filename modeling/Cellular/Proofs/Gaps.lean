import Mathlib.Tactic.ByContra
import Cellular.Proofs.Filling
import Cellular.Proofs.Reading

/-!
# Well-formed tables and their gaps

The size of a table tells how many gaps it has only if every key is the key of a
configuration that there is.  Writes of such configurations keep a table in this
form, and a build makes no others.
-/

namespace Cellular

namespace Table

/-- Keys stand for configurations of the table's states, and are mapped to such
states. -/
structure IsWellFormed (table : Table) : Prop where
  exists_configuration : ∀ {key s}, table.lookup? key = some s →
    ∃ c ∈ table.packing.configurations, table.packing.pack c = key
  lt_stateCount : ∀ {key s}, table.lookup? key = some s →
    s < table.packing.stateCount

variable {table : Table} {c : Configuration}

theorem isWellFormed_empty (name : Option String) (packing : Packing) :
    (empty name packing).IsWellFormed := by
  have hnone : ∀ key, (empty name packing).lookup? key = none :=
    fun key => Std.ExtTreeMap.getElem?_empty
  constructor
  · intro key s h
    rw [hnone] at h
    cases h
  · intro key s h
    rw [hnone] at h
    cases h

theorem isWellFormed_write {w : Configuration × State} (h : table.IsWellFormed)
    (hc : w.1 ∈ table.packing.configurations) (hs : w.2 < table.packing.stateCount) :
    (table.write w).IsWellFormed := by
  constructor
  · intro key s hkey
    rw [lookup?_write] at hkey
    rw [packing_write]
    split at hkey
    · rename_i hpack
      exact ⟨w.1, hc, hpack⟩
    · exact h.exists_configuration hkey
  · intro key s hkey
    rw [lookup?_write] at hkey
    rw [packing_write]
    split at hkey
    · cases hkey
      exact hs
    · exact h.lt_stateCount hkey

theorem isWellFormed_writeAll {transitions : List (Configuration × State)}
    (h : table.IsWellFormed)
    (hall : ∀ w ∈ transitions, w.1 ∈ table.packing.configurations ∧
      w.2 < table.packing.stateCount) :
    (table.writeAll transitions).IsWellFormed := by
  induction transitions generalizing table with
  | nil => exact h
  | cons w rest ih =>
    obtain ⟨hc, hs⟩ := hall w List.mem_cons_self
    exact ih (isWellFormed_write h hc hs) fun later hlater =>
      hall later (List.mem_cons_of_mem w hlater)

theorem fits_of_mem_configurations (hc : c ∈ table.packing.configurations) :
    table.packing.Fits c :=
  Packing.fits_of_lt_stateCount (Packing.mem_configurations_iff.1 hc)

/-- Configurations that fit their slots but are not among those there are have
no next state. -/
theorem next?_eq_none (h : table.IsWellFormed) (hfit : table.packing.Fits c)
    (hc : c ∉ table.packing.configurations) : table.next? c = none := by
  rw [Option.eq_none_iff_forall_ne_some]
  intro s hs
  obtain ⟨d, hd, hpack⟩ := h.exists_configuration hs
  have hdc : d = c := (Packing.pack_inj (fits_of_mem_configurations hd) hfit).1 hpack
  exact hc (hdc ▸ hd)

/-- The keys of a well-formed table are those of the configurations that it
maps. -/
theorem perm_keys (h : table.IsWellFormed) :
    ((table.packing.configurations.filter fun c => (table.next? c).isSome).map
      table.packing.pack).Perm table.entries.keys := by
  rw [List.perm_ext_iff_of_nodup _ Std.ExtTreeMap.nodup_keys]
  · intro key
    rw [Std.ExtTreeMap.mem_keys, Std.ExtTreeMap.mem_iff_isSome_getElem?, List.mem_map]
    constructor
    · rintro ⟨c, hc, rfl⟩
      exact (List.mem_filter.1 hc).2
    · intro hkey
      obtain ⟨s, hs⟩ := Option.isSome_iff_exists.1 hkey
      obtain ⟨c, hc, hpack⟩ := h.exists_configuration hs
      refine ⟨c, List.mem_filter.2 ⟨hc, ?_⟩, hpack⟩
      rwa [next?, hpack]
  · apply List.Nodup.map_on
    · intro c hc d hd hpack
      exact (Packing.pack_inj (fits_of_mem_configurations (List.mem_filter.1 hc).1)
        (fits_of_mem_configurations (List.mem_filter.1 hd).1)).1 hpack
    · exact table.packing.nodup_configurations.filter _

/-- Every configuration is mapped or a gap. -/
theorem size_add_length_gaps (h : table.IsWellFormed) :
    table.size + table.gaps.length = table.packing.configurationCount := by
  have hsize : (table.packing.configurations.filter fun c =>
      (table.next? c).isSome).length = table.size := by
    rw [← List.length_map, (perm_keys h).length_eq, Std.ExtTreeMap.length_keys, size]
  have hgaps : table.gaps =
      table.packing.configurations.filter fun c => !(table.next? c).isSome := by
    rw [gaps]
    congr 1
    funext c
    rw [Option.not_isSome]
  rw [← hsize, hgaps, ← List.length_eq_length_filter_add,
    Packing.length_configurations]

theorem size_le_configurationCount (h : table.IsWellFormed) :
    table.size ≤ table.packing.configurationCount := by
  have hcount := size_add_length_gaps h
  omega

theorem length_gaps (h : table.IsWellFormed) : table.gaps.length = table.gapCount := by
  have hcount := size_add_length_gaps h
  rw [gapCount]
  omega

theorem isTotal_iff (h : table.IsWellFormed) : table.isTotal = true ↔ table.gaps = [] := by
  have hcount := size_add_length_gaps h
  rw [isTotal, beq_iff_eq, ← List.length_eq_zero_iff]
  omega

theorem mem_gaps_iff :
    c ∈ table.gaps ↔
      (∀ s ∈ c.states, s < table.packing.stateCount) ∧ table.next? c = none := by
  rw [gaps, List.mem_filter, Packing.mem_configurations_iff, Option.isNone_iff_eq_none]

theorem pairwise_gaps (table : Table) :
    table.gaps.Pairwise fun c d => c.states < d.states :=
  table.packing.pairwise_configurations.filter _

end Table

namespace Rule

variable {rule : Rule} {settings : Settings} {table : Table}

theorem isWellFormed_of_initialTable (h : rule.initialTable settings = .ok table) :
    table.IsWellFormed := by
  have hblank : rule.blankTable.IsWellFormed := Table.isWellFormed_empty _ _
  rw [initialTable] at h
  split at h
  · cases h
    exact hblank
  · simp only at h
    split at h
    · cases h
      apply Table.isWellFormed_writeAll hblank
      intro w hw
      obtain ⟨c, hc, rfl⟩ := List.mem_map.1 hw
      exact ⟨hc, Packing.mem_configurations_iff.1 hc c.center List.mem_cons_self⟩
    · cases h

/-- A well-formed rule writes configurations of its states only, and only such
states. -/
theorem lt_stateCount_of_mem_transitions {clause : Clause}
    (hvalid : rule.validate = .ok ()) (hclause : clause ∈ rule.clauses)
    {w : Configuration × State} (hw : w ∈ rule.transitions clause) :
    (∀ s ∈ w.1.states, s < rule.stateCount) ∧ w.2 < rule.stateCount := by
  obtain ⟨r, hreads, hnext⟩ := mem_transitions_iff.1 hw
  refine ⟨reads_lt_stateCount hvalid hclause hreads, ?_⟩
  have hfield : clause.next ∈ clause.fields := by simp [Clause.fields]
  rw [hnext]
  exact under_lt_stateCount hvalid hclause hreads.1 hfield

/-- The clauses of a well-formed rule keep a table well-formed. -/
theorem isWellFormed_writeAll_transitions (hvalid : rule.validate = .ok ())
    (hpacking : table.packing = rule.packing) (htable : table.IsWellFormed)
    {clauses : List Clause} (hclauses : ∀ clause ∈ clauses, clause ∈ rule.clauses) :
    (table.writeAll (clauses.flatMap rule.transitions)).IsWellFormed := by
  apply Table.isWellFormed_writeAll htable
  intro w hw
  obtain ⟨clause, hclause, hw⟩ := List.mem_flatMap.1 hw
  rw [hpacking, Packing.mem_configurations_iff]
  exact lt_stateCount_of_mem_transitions hvalid (hclauses clause hclause) hw

theorem isWellFormed_of_build (h : rule.build settings = .ok table) :
    table.IsWellFormed := by
  obtain ⟨hvalid, initial, hinitial, rfl⟩ := build_eq_ok_iff.1 h
  exact isWellFormed_writeAll_transitions hvalid (packing_of_initialTable hinitial)
    (isWellFormed_of_initialTable hinitial) fun _ hclause => hclause

/-- **The gaps of a built table are accounted for.**  Keys stand for
configurations of the rule's states and are mapped to such states.  So there are
no more of them than configurations, the gaps are in order the configurations
without a next state, as many as are counted, and a table is total exactly if it
has none.  States that are none of the rule's have no next state as long as they
fit their slots. -/
theorem build_accounts_for_gaps (hbuild : rule.build settings = .ok table) :
    (∀ key s, table.lookup? key = some s →
      (∃ c : Configuration, (∀ t ∈ c.states, t < rule.stateCount) ∧
        rule.packing.pack c = key) ∧ s < rule.stateCount) ∧
    table.size ≤ table.packing.configurationCount ∧
    (∀ c, c ∈ table.gaps ↔
      (∀ s ∈ c.states, s < rule.stateCount) ∧ table.next? c = none) ∧
    (table.gaps.Pairwise fun c d => c.states < d.states) ∧
    table.gaps.Sublist rule.packing.configurations ∧
    table.gaps.length = table.gapCount ∧
    (table.isTotal = true ↔ table.gaps = []) ∧
    ∀ c : Configuration, (∀ s ∈ c.states, s < 2 ^ rule.packing.width) →
      (∃ s ∈ c.states, rule.stateCount ≤ s) → table.next? c = none := by
  have hwell := isWellFormed_of_build hbuild
  have hpacking := packing_of_build hbuild
  refine ⟨fun key s hkey => ⟨?_, ?_⟩, Table.size_le_configurationCount hwell,
    fun c => ?_, table.pairwise_gaps, ?_, Table.length_gaps hwell,
    Table.isTotal_iff hwell, fun c hfit hstray => ?_⟩
  · obtain ⟨c, hc, hpack⟩ := hwell.exists_configuration hkey
    rw [hpacking] at hc hpack
    exact ⟨c, Packing.mem_configurations_iff.1 hc, hpack⟩
  · have hs := hwell.lt_stateCount hkey
    rwa [hpacking] at hs
  · rw [Table.mem_gaps_iff, hpacking]
    rfl
  · rw [← hpacking]
    exact List.filter_sublist
  · have hfits : table.packing.Fits c := by
      rw [hpacking]
      exact hfit
    apply Table.next?_eq_none hwell hfits
    rw [hpacking, Packing.mem_configurations_iff]
    obtain ⟨s, hs, hle⟩ := hstray
    intro hall
    exact Nat.not_lt.2 hle (hall s hs)

/-- A rule with three states, so that a slot has room for more. -/
def ternary : Rule where
  stateCount := 3
  symmetry := .rotate4
  declarations := InsertionMap.empty.insert "a" [0, 2]
  clauses :=
    [⟨.var 0, ⟨[.state 1, .var 0, .state 0, .state 0, .state 0, .state 0,
        .state 0, .state 0], rfl⟩, .var 0, 4⟩]

/-- A state that it does not have is mapped nowhere, although there is room for it. -/
theorem ternary_accounts_for_gaps :
    ∃ table, ternary.build {} = .ok table ∧ table.gaps.length = table.gapCount ∧
      (∀ s ∈ [3, 1, 0, 0, 0, 0, 0, 0, 0], s < 2 ^ ternary.packing.width) ∧
      (∃ s ∈ [3, 1, 0, 0, 0, 0, 0, 0, 0], ternary.stateCount ≤ s) ∧
      table.next? ⟨3, ⟨[1, 0, 0, 0, 0, 0, 0, 0], rfl⟩⟩ = none := by
  have hbuild := @build_eq_of_unmapped ternary {} rfl rfl
  obtain ⟨-, -, -, -, -, hlength, -, hstray⟩ := build_accounts_for_gaps hbuild
  have hfit : ∀ s ∈ [3, 1, 0, 0, 0, 0, 0, 0, 0], s < 2 ^ ternary.packing.width := by
    decide
  have hextra : ∃ s ∈ [3, 1, 0, 0, 0, 0, 0, 0, 0], ternary.stateCount ≤ s := by decide
  exact ⟨_, hbuild, hlength, hfit, hextra, hstray _ hfit hextra⟩

end Rule

end Cellular
