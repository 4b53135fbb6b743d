import Cellular.Rule.Basic

/-!
# Well-formed rules

A rule can be built into a table when its number of states is allowed, every
state it mentions is one of them, every variable is declared, and the variable
that a clause gives as next state occurs among the inputs of that clause.
-/

namespace Cellular

/-- What is wrong with a clause. -/
inductive ClauseFault where
  | undeclaredVariable (id : Nat)
  | stateOutOfRange (s : State) (stateCount : Nat)
  | unboundOutput (name : String)
deriving DecidableEq

def ClauseFault.message : ClauseFault → String
  | undeclaredVariable id =>
    "variable index " ++ toString id ++ " is not declared"
  | stateOutOfRange s stateCount =>
    "state " ++ toString s ++ " is out of range for " ++ toString stateCount ++
      " states"
  | unboundOutput name =>
    "output variable '" ++ name ++ "' is not bound by any input"

/-- What is wrong with a rule. -/
inductive RuleFault where
  | stateCount (n : Nat)
  /-- A clause, by its place and its line, is at fault. -/
  | clause (place line : Nat) (fault : ClauseFault)
deriving DecidableEq

def RuleFault.message : RuleFault → String
  | stateCount n =>
    "rule declares " ++ toString n ++ " states, expected " ++
      toString Rule.leastStateCount ++ "..=" ++ toString Rule.greatestStateCount
  | clause place line fault =>
    "clause " ++ toString place ++ " (line " ++ toString line ++ "): " ++
      fault.message

namespace Rule

/-- What is wrong with a field, taken by itself. -/
def fieldFault? (rule : Rule) : Field → Option ClauseFault
  | .state s =>
    if s < rule.stateCount then none
    else some (.stateOutOfRange s rule.stateCount)
  | .var id =>
    match rule.variableAt? id with
    | none => some (.undeclaredVariable id)
    | some (_, values) =>
      (values.find? fun s => rule.stateCount ≤ s).map fun s =>
        .stateOutOfRange s rule.stateCount

/-- The fault of a next state that no input binds. -/
def outputFault? (rule : Rule) (clause : Clause) : Option ClauseFault :=
  match clause.next with
  | .state _ => none
  | .var id =>
    if Field.var id ∈ clause.inputs then none
    else some (.unboundOutput (((rule.variableAt? id).map Prod.fst).getD ""))

/-- What is wrong with a clause: the first fault of its fields, or else that
of its next state. -/
def clauseFault? (rule : Rule) (clause : Clause) : Option ClauseFault :=
  (clause.fields.findSome? rule.fieldFault?).or (rule.outputFault? clause)

/-- What is wrong with the first faulty clause of a list, whose first clause
has the given place. -/
def firstFault? (rule : Rule) (place : Nat) : List Clause → Option RuleFault
  | [] => none
  | clause :: rest =>
    match rule.clauseFault? clause with
    | some fault => some (.clause place clause.line fault)
    | none => rule.firstFault? (place + 1) rest

/-- What is wrong with a rule, if anything is. -/
def fault? (rule : Rule) : Option RuleFault :=
  if IsStateCount rule.stateCount then rule.firstFault? 0 rule.clauses
  else some (.stateCount rule.stateCount)

/-- Check that a rule can be built into a table. -/
def validate (rule : Rule) : Except RuleFault Unit :=
  match rule.fault? with
  | some fault => .error fault
  | none => .ok ()

end Rule

end Cellular
