import Cellular.Rule.Basic

/-!
# Faults of a rule table

What can be wrong with the text of a rule table.  Every fault names its line,
and the first one found ends the reading.
-/

namespace Cellular

/-- What is wrong with a transition. -/
inductive TransitionFault where
  | fieldCount (found : Nat)
  | emptyField
  | stateOverflow (token : String)
  | unknownVariable (token : String)
deriving DecidableEq

/-- What is wrong with the declaration of a variable. -/
inductive DeclarationFault where
  | badName (name : String)
  | unbraced
  | badItem (item : String)
  | noValues (name : String)
deriving DecidableEq

/-- What is wrong with the value of a parameter. -/
inductive ParameterFault where
  | notACount (value : String)
  | countOutOfRange (n : Nat)
deriving DecidableEq

/-- What is wrong with a line of a rule table. -/
inductive LineFault where
  | unrecognized (text : String)
  | transition (fault : TransitionFault)
  | declaration (fault : DeclarationFault)
  | duplicateVariable (name : String)
  | unsupportedNeighborhood (value : String)
  | unknownSymmetry (name : String)
  | parameter (key : String) (fault : ParameterFault)
  | unnamedSection
deriving DecidableEq

/-- A fault of a rule table, with the number of its line, counted from 1. -/
structure ReadError where
  line : Nat
  fault : LineFault
deriving DecidableEq

def TransitionFault.message : TransitionFault → String
  | fieldCount found =>
    "expected " ++ toString Clause.fieldCount ++ " fields, found " ++
      toString found
  | emptyField => "empty field"
  | stateOverflow token => "state '" ++ token ++ "' overflows"
  | unknownVariable token => "unknown variable '" ++ token ++ "'"

def DeclarationFault.message : DeclarationFault → String
  | badName name => "'" ++ name ++ "' is not a valid variable name"
  | unbraced => "value set must be enclosed in '\x7b...\x7d'"
  | badItem item => "'" ++ item ++ "' is neither a state nor a declared variable"
  | noValues name => "variable '" ++ name ++ "' has an empty value set"

def ParameterFault.message : ParameterFault → String
  | notACount value => "'" ++ value ++ "' is not a state count"
  | countOutOfRange n =>
    toString n ++ " is outside " ++ toString Rule.leastStateCount ++ "..=" ++
      toString Rule.greatestStateCount

def LineFault.message : LineFault → String
  | unrecognized text => "unrecognized line '" ++ text ++ "'"
  | transition fault => "malformed transition: " ++ fault.message
  | declaration fault => "malformed variable declaration: " ++ fault.message
  | duplicateVariable name => "variable '" ++ name ++ "' is already declared"
  | unsupportedNeighborhood value =>
    "unsupported neighborhood '" ++ value ++ "' (only Moore is supported)"
  | unknownSymmetry name => "unknown symmetry group '" ++ name ++ "'"
  | parameter key fault =>
    "invalid value for '" ++ key ++ "': " ++ fault.message
  | unnamedSection => "malformed section: empty section name"

def ReadError.message (e : ReadError) : String :=
  "line " ++ toString e.line ++ ": " ++ e.fault.message

end Cellular
