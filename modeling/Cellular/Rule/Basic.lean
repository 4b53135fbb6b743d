import Cellular.InsertionMap
import Cellular.Rule.Clause

/-!
# Rules

A rule is the meaning of a rule table: how many states there are, which
rearrangements of the neighbours a clause stands for, the variables with their
value lists, and the clauses in the order in which later ones overwrite earlier
ones.
-/

namespace Cellular

/-- The shapes of neighbourhood a rule may have. -/
inductive Neighborhood where
  /-- The eight cells around the center. -/
  | moore
deriving DecidableEq

namespace Neighborhood

def name : Neighborhood → String
  | moore => "Moore"

/-- The neighbourhood of a name, in any case and with blanks anywhere. -/
def ofName? (text : List Char) : Option Neighborhood :=
  if Text.lowercase (Text.squash text) = Text.lowercase moore.name.toList then
    some moore
  else
    none

end Neighborhood

/-- A rule: its parameters, its variables and its clauses. -/
structure Rule where
  name : Option String := none
  description : String := ""
  stateCount : Nat := 2
  neighborhood : Neighborhood := .moore
  symmetry : Symmetry := .permute
  declarations : InsertionMap String (List State) := .empty
  clauses : List Clause := []
  parameters : InsertionMap String String := .empty
deriving DecidableEq

namespace Rule

def leastStateCount : Nat := 2

def greatestStateCount : Nat := 256

/-- The number of states is one a rule may have. -/
def IsStateCount (n : Nat) : Prop :=
  leastStateCount ≤ n ∧ n ≤ greatestStateCount

instance (n : Nat) : Decidable (IsStateCount n) :=
  inferInstanceAs (Decidable (_ ∧ _))

def new (stateCount : Nat) (symmetry : Symmetry) : Rule :=
  { stateCount, symmetry }

/-- Give a variable its values.  A known variable keeps its place. -/
def declare (rule : Rule) (label : String) (values : List State) : Rule :=
  { rule with declarations := rule.declarations.insert label values }

/-- The place of a variable in the order of declaration. -/
def variableId? (rule : Rule) (label : String) : Option Nat :=
  rule.declarations.placeOf? label

/-- The name and the values of the variable at a place. -/
def variableAt? (rule : Rule) (id : Nat) : Option (String × List State) :=
  rule.declarations.entryAt? id

/-- The values of the variable at a place, none if there is no such
variable. -/
def domain (rule : Rule) (id : Nat) : List State :=
  match rule.variableAt? id with
  | some entry => entry.2
  | none => []

def push (rule : Rule) (clause : Clause) : Rule :=
  { rule with clauses := rule.clauses ++ [clause] }

end Rule

end Cellular
