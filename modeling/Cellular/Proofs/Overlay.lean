import Cellular.Proofs.Dispatch
import Cellular.Proofs.Gaps

/-!
# Filled tables under the writes of a rule

A table that is filled in before its clauses are written has no gaps, and writes
leave none.  So it stays total from the first clause to the last, and what it holds
in the end is the table built without filling in, laid over the centers.
-/

namespace Cellular

namespace Rule

variable {rule : Rule} {c : Configuration}

/-- Writes into the filled table lie over the centers. -/
theorem next?_identityTable_writeAll (hc : ∀ s ∈ c.states, s < rule.stateCount)
    (transitions : List (Configuration × State)) :
    (rule.identityTable.writeAll transitions).next? c =
      some (((rule.blankTable.writeAll transitions).next? c).getD c.center) := by
  have hcenter : rule.identityTable.next? c = some c.center := by
    rw [next?_identityTable (Packing.fits_of_lt_stateCount hc), if_pos hc]
  calc
    (rule.identityTable.writeAll transitions).next? c =
        (rule.identityTable.writeAll transitions).lookup? (rule.packing.pack c) := by
      rw [Table.next?, Table.packing_writeAll, packing_identityTable]
    _ = ((rule.blankTable.writeAll transitions).lookup? (rule.packing.pack c)).or
          (rule.identityTable.lookup? (rule.packing.pack c)) :=
      lookup?_writeAll_eq_or_blank (packing_identityTable rule) transitions _
    _ = ((rule.blankTable.writeAll transitions).next? c).or
          (rule.identityTable.next? c) := by
      rw [Table.next?, Table.next?, Table.packing_writeAll, packing_identityTable]
      rfl
    _ = some (((rule.blankTable.writeAll transitions).next? c).getD c.center) := by
      rw [hcenter, Option.or_some]

/-- After any number of clauses, a table that was filled in has no gaps. -/
theorem isTotal_tableAfter_identityTable (hvalid : rule.validate = .ok ()) (count : ℕ) :
    (rule.tableAfter rule.identityTable count).isTotal = true := by
  have hinitial : rule.identityTable.IsWellFormed :=
    @isWellFormed_of_initialTable rule
      { fill := .identity, fillLimit := rule.packing.configurationCount } _
      (if_pos (Nat.le_refl _))
  have hwell : (rule.tableAfter rule.identityTable count).IsWellFormed :=
    isWellFormed_writeAll_transitions hvalid (packing_identityTable rule) hinitial
      fun _ hclause => List.mem_of_mem_take hclause
  rw [Table.isTotal_iff hwell, List.eq_nil_iff_forall_not_mem]
  intro c hc
  rw [Table.mem_gaps_iff, packing_tableAfter, packing_identityTable, tableAfter] at hc
  obtain ⟨hstates, hnone⟩ := hc
  rw [next?_identityTable_writeAll hstates] at hnone
  cases hnone

/-- So every report says that all configurations are mapped. -/
theorem reportsAfter_identityTable (hvalid : rule.validate = .ok ()) (count : ℕ) :
    rule.reportsAfter rule.identityTable count =
      (List.range count).map fun i =>
        ⟨i + 1, rule.clauses.length, rule.stateCount ^ 9⟩ := by
  have hsize : ∀ i, (rule.tableAfter rule.identityTable i).size = rule.stateCount ^ 9 := by
    intro i
    have htotal := isTotal_tableAfter_identityTable hvalid i
    rw [Table.isTotal, beq_iff_eq, packing_tableAfter, packing_identityTable] at htotal
    exact htotal
  rw [reportsAfter]
  simp only [hsize]

/-- A well-formed rule is filled in by writing its clauses into the identity. -/
theorem buildReporting_of_identity {settings : Settings} (hvalid : rule.validate = .ok ())
    (hfill : settings.fill = .identity)
    (hroom : rule.stateCount ^ 9 ≤ settings.fillLimit) :
    rule.buildReporting settings =
      .ok (rule.tableAfter rule.identityTable rule.clauses.length,
        rule.reportsAfter rule.identityTable rule.clauses.length) := by
  have hinitial : rule.initialTable settings = .ok rule.identityTable := by
    rw [initialTable, hfill]
    exact if_pos hroom
  rw [buildReporting, validate_eq_ok_iff.1 hvalid, hinitial, tableAfter_length,
    reportsAfter_length]

/-- **Filling in lays the rule over the identity.**  With room for all configurations,
the filled table is total, and it maps each of them to what the table without filling
has for it, or to its center where that one has a gap.  All configurations are mapped
from the start, so every report counts all of them, also when the clauses are shared
out to workers. -/
theorem identity_fill_lies_under_clauses {settings : Settings}
    (hvalid : rule.validate = .ok ()) (hfill : settings.fill = .identity)
    (hroom : rule.stateCount ^ 9 ≤ settings.fillLimit) :
    ∃ filled plain reports,
      rule.buildReporting settings = .ok (filled, reports) ∧
      (∀ other : Settings, other.fill = .unmapped → rule.build other = .ok plain) ∧
      filled.isTotal = true ∧
      (∀ c : Configuration, (∀ s ∈ c.states, s < rule.stateCount) →
        filled.next? c = some ((plain.next? c).getD c.center)) ∧
      reports = (List.range rule.clauses.length).map (fun i =>
        ⟨i + 1, rule.clauses.length, rule.stateCount ^ 9⟩) ∧
      ∀ workers d, Dispatch.Reachable rule workers rule.identityTable d →
        (∀ report ∈ d.reports, report.entriesWritten = rule.stateCount ^ 9) ∧
        (d.isFinished rule = true → d.table = filled ∧ d.reports = reports) := by
  refine ⟨_, rule.blankTable.writeAll rule.allTransitions, _,
    buildReporting_of_identity hvalid hfill hroom, ?_,
    isTotal_tableAfter_identityTable hvalid _, ?_,
    reportsAfter_identityTable hvalid _, ?_⟩
  · intro other hother
    exact build_eq_of_unmapped hvalid hother
  · intro c hc
    rw [tableAfter, List.take_length]
    exact next?_identityTable_writeAll hc rule.allTransitions
  · intro workers d hreachable
    obtain ⟨log, hlog⟩ := Dispatch.reachable_iff_exists_history.1 hreachable
    have hinv := Dispatch.Invariant.of_history (packing_identityTable rule) hlog
    constructor
    · intro report hreport
      rw [hinv.reports_eq, reportsAfter_identityTable hvalid] at hreport
      obtain ⟨i, -, rfl⟩ := List.mem_map.1 hreport
      rfl
    · intro hfinished
      rw [Dispatch.isFinished, beq_iff_eq] at hfinished
      rw [hinv.table_eq, hinv.reports_eq, hfinished]
      exact ⟨rfl, rfl⟩

/-- A rule with three states: a cell takes the state of a neighbour that is alone, and
the last state does not survive alone. -/
def contagion : Rule where
  stateCount := 3
  symmetry := .rotate8
  declarations := InsertionMap.empty.insert "a" [1, 2]
  clauses :=
    [⟨.state 0, ⟨[.state 0, .state 0, .state 0, .state 0, .var 0, .state 0, .state 0,
        .state 0], rfl⟩, .var 0, 4⟩,
     ⟨.state 2, ⟨[.state 0, .state 0, .state 0, .state 0, .state 0, .state 0, .state 0,
        .state 0], rfl⟩, .state 0, 5⟩]

/-- There is room for its configurations and for no more.  Where no clause matches, the
center stays. -/
theorem contagion_lies_over_identity :
    contagion.validate = .ok () ∧ contagion.stateCount ^ 9 ≤ 19683 ∧
      ∃ filled reports,
        contagion.buildReporting { fill := .identity, fillLimit := 19683 } =
          .ok (filled, reports) ∧
        filled.isTotal = true ∧
        filled.next? ⟨0, ⟨[0, 0, 0, 2, 0, 0, 0, 0], rfl⟩⟩ = some 2 ∧
        filled.next? ⟨1, ⟨[0, 0, 0, 2, 0, 0, 0, 0], rfl⟩⟩ = some 1 ∧
        reports = [⟨1, 2, 19683⟩, ⟨2, 2, 19683⟩] := by
  have hvalid : contagion.validate = .ok () := rfl
  have hroom : contagion.stateCount ^ 9 ≤ 19683 := by decide
  obtain ⟨filled, plain, reports, hbuild, hplain, htotal, hnext, hreports, -⟩ :=
    @identity_fill_lies_under_clauses contagion { fill := .identity, fillLimit := 19683 }
      hvalid rfl hroom
  have hgaps : (contagion.build {}).map (fun table =>
      (table.next? ⟨0, ⟨[0, 0, 0, 2, 0, 0, 0, 0], rfl⟩⟩,
        table.next? ⟨1, ⟨[0, 0, 0, 2, 0, 0, 0, 0], rfl⟩⟩)) = .ok (some 2, none) := by
    decide +kernel
  rw [hplain {} rfl, Except.map, Except.ok.injEq, Prod.mk.injEq] at hgaps
  refine ⟨hvalid, hroom, filled, reports, hbuild, htotal, ?_, ?_, hreports⟩
  · rw [hnext _ (by decide), hgaps.1]
    rfl
  · rw [hnext _ (by decide), hgaps.2]
    rfl

end Rule

end Cellular
