import Cellular.Proofs.Writes

/-!
# The part of a rule that a build uses

The name and the description of a rule, its free parameters and the line numbers
of its clauses have no part in building its table.  Without them a rule is built
into the same table, except for the name, and where the build is refused it is
refused with the same fault, except for the line.
-/

namespace Cellular

/-- The clause without its line number. -/
def Clause.unnumbered (clause : Clause) : Clause :=
  { clause with line := 0 }

/-- The fault without its line number. -/
def RuleFault.unnumbered : RuleFault → RuleFault
  | stateCount n => stateCount n
  | clause place _ fault => clause place 0 fault

/-- The error without a line number of the rule. -/
def BuildError.unnumbered : BuildError → BuildError
  | illFormed fault => illFormed fault.unnumbered
  | e => e

/-- The table without its name. -/
def Table.nameless (table : Table) : Table :=
  { table with name := none }

namespace Table

theorem nameless_writeAll (table : Table)
    (transitions : List (Configuration × State)) :
    (table.writeAll transitions).nameless = table.nameless.writeAll transitions := by
  induction transitions generalizing table with
  | nil => rfl
  | cons transition rest ih =>
    rw [writeAll_cons, writeAll_cons, ih]
    rfl

/-- Tables that differ in their names alone. -/
theorem eq_of_nameless_eq {left right : Table}
    (h : left.nameless = right.nameless) :
    left = { right with name := left.name } := by
  cases left
  cases right
  simpa [nameless] using h

end Table

namespace Rule

/-- The rule without all that a build does not use. -/
def core (rule : Rule) : Rule :=
  { rule with
    name := none
    description := ""
    clauses := rule.clauses.map Clause.unnumbered
    parameters := .empty }

theorem core_eq_iff {r s : Rule} :
    r.core = s.core ↔
      r.stateCount = s.stateCount ∧ r.neighborhood = s.neighborhood ∧
        r.symmetry = s.symmetry ∧ r.declarations = s.declarations ∧
        r.clauses.map Clause.unnumbered = s.clauses.map Clause.unnumbered := by
  simp [core]

theorem expand_unnumbered (clause : Clause) (symmetry : Symmetry) :
    clause.unnumbered.expand symmetry =
      (clause.expand symmetry).map Clause.unnumbered := by
  rw [Clause.expand, Clause.expand, List.map_map]
  rfl

theorem transitions_core (rule : Rule) (clause : Clause) :
    rule.core.transitions clause.unnumbered = rule.transitions clause := by
  have hexpand : clause.unnumbered.expand rule.core.symmetry =
      (clause.expand rule.symmetry).map Clause.unnumbered :=
    expand_unnumbered clause rule.symmetry
  rw [transitions, transitions, hexpand, List.flatMap_map]
  rfl

theorem allTransitions_core (rule : Rule) :
    rule.core.allTransitions = rule.allTransitions := by
  have hclauses : rule.core.clauses = rule.clauses.map Clause.unnumbered := rfl
  rw [allTransitions, allTransitions, hclauses, List.flatMap_map]
  congr 1
  funext clause
  exact transitions_core rule clause

theorem firstFault?_core (rule : Rule) (place : ℕ) (clauses : List Clause) :
    rule.core.firstFault? place (clauses.map Clause.unnumbered) =
      (rule.firstFault? place clauses).map RuleFault.unnumbered := by
  induction clauses generalizing place with
  | nil => rfl
  | cons clause rest ih =>
    have hfault : rule.core.clauseFault? clause.unnumbered =
        rule.clauseFault? clause := rfl
    rw [List.map_cons, firstFault?, firstFault?, hfault]
    cases rule.clauseFault? clause with
    | none => exact ih (place + 1)
    | some fault => rfl

theorem fault?_core (rule : Rule) :
    rule.core.fault? = rule.fault?.map RuleFault.unnumbered := by
  have hcount : rule.core.stateCount = rule.stateCount := rfl
  rw [fault?, fault?, hcount]
  split
  · exact firstFault?_core rule 0 rule.clauses
  · rfl

theorem initialTable_core (rule : Rule) (settings : Settings) :
    rule.core.initialTable settings =
      (rule.initialTable settings).map Table.nameless := by
  rw [initialTable, initialTable]
  cases settings.fill with
  | unmapped => rfl
  | identity =>
    have hcount : rule.core.packing.configurationCount =
        rule.packing.configurationCount := rfl
    have htable : rule.core.identityTable = rule.identityTable.nameless := by
      rw [identityTable, identityTable, Table.nameless_writeAll]
      rfl
    simp only [hcount, htable]
    split <;> rfl

/-- Building the core of a rule is building the rule. -/
theorem build_core (rule : Rule) (settings : Settings) :
    rule.core.build settings =
      ((rule.build settings).map Table.nameless).mapError BuildError.unnumbered := by
  rw [build_eq, build_eq, fault?_core, initialTable_core, allTransitions_core]
  cases rule.fault? with
  | some fault => rfl
  | none =>
    cases hinitial : rule.initialTable settings with
    | ok table =>
      simp only [Option.map_none, Except.map, Except.mapError,
        Table.nameless_writeAll]
    | error e =>
      have he : e.unnumbered = e := by
        rw [initialTable] at hinitial
        split at hinitial
        · cases hinitial
        · simp only at hinitial
          split at hinitial
          · cases hinitial
          · cases hinitial
            rfl
      simp only [Option.map_none, Except.map, Except.mapError, he]

theorem name_of_initialTable {rule : Rule} {settings : Settings} {table : Table}
    (hinitial : rule.initialTable settings = .ok table) : table.name = rule.name := by
  rw [initialTable] at hinitial
  split at hinitial
  · cases hinitial
    rfl
  · simp only at hinitial
    split at hinitial
    · cases hinitial
      rw [identityTable, Table.name_writeAll]
      rfl
    · cases hinitial

theorem name_of_build {rule : Rule} {settings : Settings} {table : Table}
    (hbuild : rule.build settings = .ok table) : table.name = rule.name := by
  rw [build_eq] at hbuild
  cases hfault : rule.fault? with
  | some fault =>
    rw [hfault] at hbuild
    cases hbuild
  | none =>
    cases hinitial : rule.initialTable settings with
    | error e =>
      rw [hfault, hinitial] at hbuild
      cases hbuild
    | ok initial =>
      rw [hfault, hinitial] at hbuild
      cases hbuild
      rw [Table.name_writeAll, name_of_initialTable hinitial]

/-- Rules with the same core are built into tables that differ in their names
alone. -/
theorem build_of_core_eq {r s : Rule} {settings : Settings} {table : Table}
    (hcore : r.core = s.core) (hbuild : s.build settings = .ok table) :
    r.build settings = .ok { table with name := r.name } := by
  have hsame := build_core s settings
  rw [hbuild, ← hcore, build_core] at hsame
  cases hr : r.build settings with
  | error e =>
    rw [hr] at hsame
    cases hsame
  | ok other =>
    rw [hr] at hsame
    have hnameless : other.nameless = table.nameless := Except.ok.inj hsame
    rw [Table.eq_of_nameless_eq hnameless, name_of_build hr]

end Rule

end Cellular
