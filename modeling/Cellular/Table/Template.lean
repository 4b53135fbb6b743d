import Cellular.Table.Assignment

/-!
# Templates of clauses

To substitute many assignments in one clause, the clause is prepared: each of its
fields becomes a state or the place in an assignment at which its variable has its
value.  The places are found by search in the ascending list of the variables.
-/

namespace Cellular

/-- A field of a prepared clause: a state, or a place in an assignment. -/
inductive Slot where
  | literal (s : State)
  | bound (place : Nat)
deriving DecidableEq

namespace Slot

/-- The slot of a field.  A variable is at the first place whose variable does not come
before it. -/
def ofField (vars : List Nat) : Field → Slot
  | .state s => literal s
  | .var id => bound (vars.findIdx fun other => id ≤ other)

/-- The state of a slot under an assignment, if the assignment is long enough. -/
def state? (values : List State) : Slot → Option State
  | literal s => some s
  | bound place => values[place]?

end Slot

/-- A clause whose fields refer to the places of an assignment. -/
structure Template where
  vars : List Nat
  center : Slot
  ring : Ring Slot
  next : Slot
deriving DecidableEq

namespace Template

/-- The template of a clause, for assignments to its variables in ascending order. -/
def ofClause (clause : Clause) : Template where
  vars := clause.variableIds
  center := .ofField clause.variableIds clause.center
  ring := clause.ring.map (.ofField clause.variableIds)
  next := .ofField clause.variableIds clause.next

/-- The configuration and the next state under an assignment, if it is long enough. -/
def substitute? (template : Template) (values : List State) :
    Option (Configuration × State) := do
  let states ← (template.center :: template.ring.cells).mapM (Slot.state? values)
  let configuration ← Configuration.ofStates? states
  let next ← template.next.state? values
  return (configuration, next)

end Template

end Cellular
