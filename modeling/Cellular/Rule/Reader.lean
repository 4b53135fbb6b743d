import Cellular.Rule.Line
import Cellular.Rule.ReadError

/-!
# Reading a rule table

A rule table is a sequence of lines under section headers.  The lines of the
table section, and those before the first header, each declare a variable, set
a parameter or add a clause; those under the name of the rule describe it; the
rest is display data and is passed over.  Reading goes from the first line to
the last and stops at the first fault, so a line sees exactly the variables
declared above it.
-/

namespace Cellular

namespace Rule

/-- The sections a line may belong to. -/
inductive Section where
  /-- The table itself, and all that comes before the first header. -/
  | table
  /-- The text that describes the rule. -/
  | description
  /-- Display data, and sections of other kinds. -/
  | ignored
deriving DecidableEq

/-- Open a section: the section and the rule with the name that the header may
give it. -/
def openSection (rule : Rule) (header : List Char) :
    Except LineFault (Section × Rule) :=
  let argument := Line.headerArgument header
  match String.ofList (Line.headerName header) with
  | "" => .error .unnamedSection
  | "RULE" =>
    if argument.isEmpty then .ok (.description, rule)
    else .ok (.description, { rule with name := some (String.ofList argument) })
  | "TABLE" => .ok (.table, rule)
  | _ => .ok (.ignored, rule)

/-- The inside of a text that starts and ends with braces. -/
def braced? : List Char → Option (List Char)
  | '\x7b' :: rest =>
    if rest.getLast? = some '\x7d' then some rest.dropLast else none
  | _ => none

/-- The values of one item of a value set: a state, or the values of a variable
declared above. -/
def readItem (rule : Rule) (item : List Char) :
    Except DeclarationFault (List State) :=
  match Text.readNumeral item with
  | some s => .ok [s]
  | none =>
    match rule.declarations.get? (String.ofList item) with
    | some values => .ok values
    | none => .error (.badItem (String.ofList item))

/-- The values of the items of a value set, in order. -/
def readItems (rule : Rule) :
    List (List Char) → Except DeclarationFault (List State)
  | [] => .ok []
  | item :: rest => do
    let values ← readItem rule item
    let others ← readItems rule rest
    return values ++ others

/-- The items of a value set, those that are blank left out. -/
def itemsOf (inside : List Char) : List (List Char) :=
  ((inside.splitOn ',').map Text.trim).filter fun item => !item.isEmpty

/-- The values of a value set in braces. -/
def readValueSet (rule : Rule) (name : String) (valueSet : List Char) :
    Except DeclarationFault (List State) :=
  match braced? valueSet with
  | none => .error .unbraced
  | some inside => do
    let values ← readItems rule (itemsOf inside)
    if values.isEmpty then .error (.noValues name) else .ok values

/-- Read the declaration of a variable. -/
def readDeclaration (rule : Rule) (name valueSet : List Char) :
    Except LineFault Rule :=
  let label := String.ofList name
  if !Text.isIdentifier name then
    .error (.declaration (.badName label))
  else if rule.declarations.contains label then
    .error (.duplicateVariable label)
  else
    match readValueSet rule label valueSet with
    | .error fault => .error (.declaration fault)
    | .ok values => .ok (rule.declare label values)

/-- Read the number of states. -/
def readStateCount (value : List Char) : Except ParameterFault Nat :=
  match Text.readSignedNumeral value with
  | none => .error (.notACount (String.ofList value))
  | some n => if IsStateCount n then .ok n else .error (.countOutOfRange n)

/-- Read a parameter.  Those that are not known are kept as they are. -/
def readParameter (rule : Rule) (key value : List Char) :
    Except LineFault Rule :=
  match String.ofList key with
  | "n_states" =>
    match readStateCount value with
    | .error fault => .error (.parameter "n_states" fault)
    | .ok n => .ok { rule with stateCount := n }
  | "neighborhood" =>
    match Neighborhood.ofName? value with
    | none => .error (.unsupportedNeighborhood (String.ofList value))
    | some neighborhood => .ok { rule with neighborhood }
  | "symmetries" | "symmetry" =>
    match Symmetry.ofName? value with
    | none => .error (.unknownSymmetry (String.ofList value))
    | some symmetry => .ok { rule with symmetry }
  | other =>
    let parameters := rule.parameters.insert other (String.ofList value)
    .ok { rule with parameters }

/-- Read a field of a transition. -/
def readField (rule : Rule) (token : List Char) :
    Except TransitionFault Field :=
  if token.isEmpty then
    .error .emptyField
  else if Text.isNumeral token then
    match Text.readNumeral token with
    | some s => .ok (.state s)
    | none => .error (.stateOverflow (String.ofList token))
  else
    match rule.variableId? (String.ofList token) with
    | some id => .ok (.var id)
    | none => .error (.unknownVariable (String.ofList token))

/-- Read the fields of a transition, in order. -/
def readFields (rule : Rule) :
    List (List Char) → Except TransitionFault (List Field)
  | [] => .ok []
  | token :: rest => do
    let field ← readField rule token
    let others ← readFields rule rest
    return field :: others

/-- Read a transition. -/
def readTransition (rule : Rule) (line : Nat) (tokens : List (List Char)) :
    Except TransitionFault Clause :=
  if tokens.length ≠ Clause.fieldCount then
    .error (.fieldCount tokens.length)
  else do
    let fields ← readFields rule tokens
    match Clause.ofFields? line fields with
    | some clause => .ok clause
    | none => .error (.fieldCount fields.length)

/-- Read a line of the table section. -/
def readTableLine (rule : Rule) (line : Nat) (text : List Char) :
    Except LineFault Rule :=
  match TableLine.ofContent (Text.trimEnd (Line.uncommented text)) with
  | .declaration name valueSet => readDeclaration rule name valueSet
  | .parameter key value => readParameter rule key value
  | .transition tokens =>
    match readTransition rule line tokens with
    | .error fault => .error (.transition fault)
    | .ok clause => .ok (rule.push clause)
  | .unrecognized => .error (.unrecognized (String.ofList text))

/-- Read one line: the section it leaves open and the rule so far. -/
def readLine (line : Nat) (raw : List Char) (current : Section) (rule : Rule) :
    Except LineFault (Section × Rule) :=
  match Line.classify raw with
  | .skipped => .ok (current, rule)
  | .header text => rule.openSection text
  | .content text =>
    match current with
    | .table =>
      match readTableLine rule line text with
      | .error fault => .error fault
      | .ok next => .ok (.table, next)
    | .description =>
      let description := rule.description ++ String.ofList text ++ "\n"
      .ok (.description, { rule with description })
    | .ignored => .ok (.ignored, rule)

/-- Read the lines of a rule table, of which the first has the number
`line`. -/
def readLines (line : Nat) :
    List (List Char) → Section → Rule → Except ReadError Rule
  | [], _, rule => .ok rule
  | raw :: rest, current, rule =>
    match readLine line raw current rule with
    | .error fault => .error ⟨line, fault⟩
    | .ok (current, rule) => readLines (line + 1) rest current rule

/-- The rule that a rule table says. -/
def read (text : String) : Except ReadError Rule :=
  readLines 1 (Line.rawLines text.toList) .table {}

end Rule

end Cellular
