import Cellular.Rule.Reader
import Cellular.Rule.Validity
import Cellular.Table.Assignment
import Cellular.Table.Basic
import Cellular.Table.Settings

/-!
# Building tables

A rule is built into a table clause by clause: every clause writes all its
transitions, and a later write to a configuration replaces an earlier one.
After each clause the size of the table is reported.  The number of workers has
no part in this: however the clauses are shared out, they are written in their
order.
-/

namespace Cellular

/-- Why a table cannot be built. -/
inductive BuildError where
  /-- The rule table cannot be read. -/
  | unreadable (e : ReadError)
  /-- The rule is not well formed. -/
  | illFormed (fault : RuleFault)
  /-- There are more configurations than may be filled in. -/
  | fillTooLarge (configurations limit : Nat)
deriving DecidableEq

def BuildError.message : BuildError → String
  | unreadable e => e.message
  | illFormed fault => fault.message
  | fillTooLarge configurations limit =>
    "identity seeding needs " ++ toString configurations ++
      " configurations, limit is " ++ toString limit

/-- How far a build has come. -/
structure Progress where
  clausesDone : Nat
  clausesTotal : Nat
  /-- The number of configurations mapped so far. -/
  entriesWritten : Nat
deriving DecidableEq

namespace Rule

/-- The layout of the keys of a rule's table. -/
def packing (rule : Rule) : Packing where
  stateCount := rule.stateCount

/-- The table before any clause is written. -/
def blankTable (rule : Rule) : Table :=
  .empty rule.name rule.packing

/-- The table that maps every configuration to its center. -/
def identityTable (rule : Rule) : Table :=
  rule.blankTable.writeAll
    (rule.packing.configurations.map fun c => (c, c.center))

/-- The table that a build starts from. -/
def initialTable (rule : Rule) (settings : Settings) :
    Except BuildError Table :=
  match settings.fill with
  | .unmapped => .ok rule.blankTable
  | .identity =>
    let count := rule.packing.configurationCount
    if count ≤ settings.fillLimit then .ok rule.identityTable
    else .error (.fillTooLarge count settings.fillLimit)

/-- Write the clauses of a list in turn, of which `done` come before.  The
table is returned with a report for each clause. -/
def writeClauses (rule : Rule) (done : Nat) (table : Table) :
    List Clause → Table × List Progress
  | [] => (table, [])
  | clause :: rest =>
    let table := table.writeAll (rule.transitions clause)
    let report := ⟨done + 1, rule.clauses.length, table.size⟩
    let (final, reports) := rule.writeClauses (done + 1) table rest
    (final, report :: reports)

/-- Build the table of a rule, with the reports made on the way. -/
def buildReporting (rule : Rule) (settings : Settings) :
    Except BuildError (Table × List Progress) :=
  match rule.fault? with
  | some fault => .error (.illFormed fault)
  | none =>
    match rule.initialTable settings with
    | .error e => .error e
    | .ok table => .ok (rule.writeClauses 0 table rule.clauses)

/-- Build the table of a rule. -/
def build (rule : Rule) (settings : Settings) : Except BuildError Table :=
  (rule.buildReporting settings).map Prod.fst

/-- Read a rule table and build it. -/
def buildText (text : String) (settings : Settings) :
    Except BuildError Table :=
  match read text with
  | .error e => .error (.unreadable e)
  | .ok rule => rule.build settings

end Rule

end Cellular
