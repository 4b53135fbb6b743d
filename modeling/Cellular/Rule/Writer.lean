import Cellular.Rule.Basic

/-!
# Writing a rule table

The plain text of a rule: its name if it has one, its parameters, one line for
each variable and one for each clause.
-/

namespace Cellular

namespace Rule

def commaSeparated (items : List (List Char)) : List Char :=
  [','].intercalate items

/-- A field as it stands in a clause. -/
def writeField (rule : Rule) : Field → List Char
  | .state s => Text.numeral s
  | .var id =>
    match rule.variableAt? id with
    | some entry => entry.1.toList
    | none => []

def writeClause (rule : Rule) (clause : Clause) : List Char :=
  commaSeparated (clause.fields.map rule.writeField)

/-- The line that declares a variable. -/
def writeDeclaration (name : String) (values : List State) : List Char :=
  "var ".toList ++ name.toList ++ "=\x7b".toList ++
    commaSeparated (values.map Text.numeral) ++ "\x7d".toList

def writeName : Option String → List (List Char)
  | none => []
  | some name => ["@RULE ".toList ++ name.toList]

/-- The lines of a rule table. -/
def writeLines (rule : Rule) : List (List Char) :=
  writeName rule.name ++
    ["@TABLE".toList,
     "n_states:".toList ++ Text.numeral rule.stateCount,
     "neighborhood:".toList ++ rule.neighborhood.name.toList,
     "symmetries:".toList ++ rule.symmetry.name.toList] ++
    rule.declarations.entries.map (fun entry => writeDeclaration entry.1 entry.2) ++
    rule.clauses.map rule.writeClause

/-- The text of a rule. -/
def write (rule : Rule) : String :=
  String.ofList ((rule.writeLines.map fun line => line ++ ['\n']).flatten)

end Rule

end Cellular
