import Cellular.Proofs.Core
import Cellular.Proofs.Key

/-!
# What texts with one key have in common

A key is read as the rule of its text, so texts with one key stand for one rule.
Under any settings they are built into tables with the same entries, or both
builds are refused for the same reason.
-/

namespace Cellular

namespace Rule

/-- A build depends only on the part of the rule that builds use. -/
theorem build_congr {r s : Rule} (hcore : r.core = s.core) (settings : Settings) :
    ((r.build settings).map Table.nameless).mapError BuildError.unnumbered =
      ((s.build settings).map Table.nameless).mapError BuildError.unnumbered := by
  rw [← build_core, ← build_core, hcore]

/-- Two builds succeed with tables that differ in their names alone, or fail with
errors that differ in their lines alone. -/
theorem build_cases_of_core_eq {r s : Rule} (hcore : r.core = s.core)
    (settings : Settings) :
    (∃ left right, r.build settings = .ok left ∧ s.build settings = .ok right ∧
      left.nameless = right.nameless) ∨
    ∃ e f, r.build settings = .error e ∧ s.build settings = .error f ∧
      e.unnumbered = f.unnumbered := by
  have hsame := build_congr hcore settings
  cases hr : r.build settings with
  | ok left =>
    cases hs : s.build settings with
    | ok right =>
      rw [hr, hs] at hsame
      exact Or.inl ⟨left, right, rfl, rfl, Except.ok.inj hsame⟩
    | error f =>
      rw [hr, hs] at hsame
      cases hsame
  | error e =>
    cases hs : s.build settings with
    | ok right =>
      rw [hr, hs] at hsame
      cases hsame
    | error f =>
      rw [hr, hs] at hsame
      exact Or.inr ⟨e, f, rfl, rfl, Except.error.inj hsame⟩

/-- Clauses that differ in their line numbers alone have the same fields. -/
theorem map_fields_of_core_eq {r s : Rule} (hcore : r.core = s.core) :
    r.clauses.map Clause.fields = s.clauses.map Clause.fields := by
  have hfields : ∀ clauses : List Clause,
      clauses.map Clause.fields =
        (clauses.map Clause.unnumbered).map Clause.fields := by
    intro clauses
    rw [List.map_map]
    rfl
  rw [hfields, hfields s.clauses, (core_eq_iff.1 hcore).2.2.2.2]

/-- The key of a text that can be read is read as a rule with the same parameters,
variables and clauses, under the same name up to its spacing.  A second text that
can be read and has this key is built, under any settings, into a table with the
same entries, or is refused with the same fault at the same clause. -/
theorem read_key_keeps_meaning {text : String} {rule : Rule}
    (hread : read text = .ok rule) :
    (∃ moved, read (key text) = .ok moved ∧
      moved.stateCount = rule.stateCount ∧
      moved.neighborhood = rule.neighborhood ∧
      moved.symmetry = rule.symmetry ∧
      moved.declarations = rule.declarations ∧
      moved.clauses.map Clause.fields = rule.clauses.map Clause.fields ∧
      moved.name = rule.name.map collapsed) ∧
    ∀ {other otherRule}, read other = .ok otherRule → key other = key text →
      ∀ settings,
        (∃ table otherTable, buildText text settings = .ok table ∧
          buildText other settings = .ok otherTable ∧
          otherTable.packing = table.packing ∧
          otherTable.entries = table.entries ∧
          otherTable.fingerprint = table.fingerprint) ∨
        ∃ e otherError, buildText text settings = .error e ∧
          buildText other settings = .error otherError ∧
          otherError.unnumbered = e.unnumbered := by
  constructor
  · obtain ⟨moved, hmoved, hsame⟩ := read_key hread
    obtain ⟨hcount, hshape, hgroup, hdeclarations, -⟩ := core_eq_iff.1 hsame.core_eq
    exact ⟨moved, hmoved, hcount, hshape, hgroup, hdeclarations,
      map_fields_of_core_eq hsame.core_eq, hsame.name_eq⟩
  · intro other otherRule hother hkey settings
    have hcore := (core_eq_of_key_eq hread hother hkey).1
    simp only [buildText, hread, hother]
    rcases build_cases_of_core_eq hcore settings with
      ⟨otherTable, table, hotherBuild, hbuild, hnameless⟩ |
      ⟨otherError, e, hotherBuild, hbuild, herror⟩
    · have hrenamed := Table.eq_of_nameless_eq hnameless
      refine Or.inl ⟨table, otherTable, hbuild, hotherBuild, ?_, ?_, ?_⟩
      · rw [hrenamed]
      · rw [hrenamed]
      · rw [hrenamed]
        rfl
    · exact Or.inr ⟨e, otherError, hbuild, hotherBuild, herror⟩

/-- A table whose clause gives a state that is none of the two there are. -/
def spacedText : String :=
  "@RULE A  B\n@TABLE\nvar a={0}\na,0,0,0,0,0,0,0,0,2"

/-- The same table in another layout. -/
def commentedText : String :=
  "@RULE A B\nx\n@TABLE\nvar  a = { 0 }\n\na,0,0,0,0,0,0,0,0,2 # y"

/-- The clause of both tables, on one of the lines. -/
def strayClause (line : ℕ) : Clause where
  center := .var 0
  ring := ⟨List.replicate 8 (.state 0), rfl⟩
  next := .state 2
  line := line

def spacedRule : Rule where
  name := some "A  B"
  declarations := InsertionMap.empty.insert "a" [0]
  clauses := [strayClause 4]

def commentedRule : Rule :=
  { spacedRule with
    name := some "A B", description := "x\n", clauses := [strayClause 6] }

/-- Both builds are refused for the same clause, on different lines. -/
theorem spacedText_keeps_meaning :
    read spacedText = .ok spacedRule ∧ read commentedText = .ok commentedRule ∧
    key commentedText = key spacedText ∧
    (∃ moved, read (key spacedText) = .ok moved ∧ moved.name = some "A B") ∧
    ∃ e, buildText commentedText {} = .error e ∧
      e.unnumbered = .illFormed (.clause 0 0 (.stateOutOfRange 2 2)) := by
  have hread : read spacedText = .ok spacedRule := by decide +kernel
  have hother : read commentedText = .ok commentedRule := by decide +kernel
  have hkey : key commentedText = key spacedText := by decide +kernel
  have hname : spacedRule.name.map collapsed = some "A B" := by decide
  have hbuild : buildText spacedText {} =
      .error (.illFormed (.clause 0 4 (.stateOutOfRange 2 2))) := by
    rw [buildText, hread]
    rfl
  obtain ⟨⟨moved, hmoved, -, -, -, -, -, hmovedName⟩, hbuilds⟩ :=
    read_key_keeps_meaning hread
  refine ⟨hread, hother, hkey, ⟨moved, hmoved, hmovedName.trans hname⟩, ?_⟩
  rcases hbuilds hother hkey {} with
    ⟨table, otherTable, htable, -⟩ | ⟨e, otherError, he, hotherError, hsame⟩
  · rw [hbuild] at htable
    cases htable
  · rw [hbuild] at he
    cases he
    exact ⟨otherError, hotherError, hsame⟩

end Rule

end Cellular
