import Cellular.Rule.Basic
import Cellular.Table.Packing

/-!
# Assignments

A clause stands for the transitions that arise when each of its variables is
given one of its values.  A variable has the same value wherever it occurs.
-/

namespace Cellular

/-- The ways to choose one value from each domain, in lexicographic order: the
last choice varies fastest. -/
def assignments : List (List State) → List (List State)
  | [] => [[]]
  | domain :: rest =>
    domain.flatMap fun s => (assignments rest).map (s :: ·)

/-- The number of ways to choose one value from each domain. -/
def assignmentCount (domains : List (List State)) : Nat :=
  (domains.map List.length).foldl (· * ·) 1

namespace Clause

/-- The value of a field when the variables `ids` have the given values. -/
def fieldValue (ids : List Nat) (values : List State) : Field → State
  | .state s => s
  | .var id => ((ids.zip values).lookup id).getD 0

/-- The configuration that a clause describes under an assignment of its
variables. -/
def configuration (clause : Clause) (values : List State) : Configuration where
  center := fieldValue clause.variableIds values clause.center
  ring := clause.ring.map (fieldValue clause.variableIds values)

/-- The next state that a clause gives under an assignment of its variables. -/
def nextState (clause : Clause) (values : List State) : State :=
  fieldValue clause.variableIds values clause.next

end Clause

namespace Rule

/-- The domains of the variables of a clause, in the order of declaration. -/
def domains (rule : Rule) (clause : Clause) : List (List State) :=
  clause.variableIds.map rule.domain

/-- The transitions that a clause stands for, in the order in which they are
written: those of the first expanded clause first, and for each of these one
for every assignment. -/
def transitions (rule : Rule) (clause : Clause) :
    List (Configuration × State) :=
  (clause.expand rule.symmetry).flatMap fun expanded =>
    (assignments (rule.domains clause)).map fun values =>
      (expanded.configuration values, expanded.nextState values)

end Rule

end Cellular
