import Cellular.Text.Token

/-!
# The lines of a rule table

A rule table is read line by line.  This module says what kind of line a text
is, before any of it is understood: first whether it is a header, a line to
skip or a line with content, and then, for the content of a table, which of the
three forms it has.  The forms overlap, and the first that fits is taken.
-/

namespace Cellular

/-- The kinds of line that are told apart everywhere in a rule table. -/
inductive Line where
  /-- A blank line or a comment. -/
  | skipped
  /-- A section header, without its leading sign. -/
  | header (text : List Char)
  /-- Any other line, trimmed. -/
  | content (text : List Char)
deriving DecidableEq

namespace Line

/-- The lines of a text.  The blanks at either end of a line, and with them
the carriage return of a line that ends in one, never matter. -/
def rawLines (text : List Char) : List (List Char) :=
  text.splitOn '\n'

/-- The kind of a line. -/
def classify (raw : List Char) : Line :=
  match Text.trim raw with
  | [] => skipped
  | '#' :: _ => skipped
  | '@' :: rest => header rest
  | text => content text

/-- The part of a line before its first comment sign. -/
def uncommented (text : List Char) : List Char :=
  text.takeWhile (· ≠ '#')

/-- The name of a header: all that comes before its first blank. -/
def headerName (text : List Char) : List Char :=
  text.takeWhile fun c => !Text.isBlank c

/-- What a header says after its name. -/
def headerArgument (text : List Char) : List Char :=
  Text.trim (text.dropWhile fun c => !Text.isBlank c)

end Line

/-- The forms that a line of a table may have. -/
inductive TableLine where
  /-- The declaration of a variable: what stands before and after the equals
  sign. -/
  | declaration (name : List Char) (valueSet : List Char)
  /-- A parameter: what stands before and after the colon. -/
  | parameter (key : List Char) (value : List Char)
  /-- A transition: what stands between the commas, without blanks. -/
  | transition (tokens : List (List Char))
  /-- None of these. -/
  | unrecognized
deriving DecidableEq

namespace TableLine

/-- What follows the keyword of a declaration.  The keyword is set off by a
blank, and an equals sign comes later on the line. -/
def declarationBody? : List Char → Option (List Char)
  | 'v' :: 'a' :: 'r' :: c :: body =>
    if Text.isBlank c && body.contains '=' then some body else none
  | _ => none

/-- Cut a text at the first occurrence of a character, which belongs to
neither part. -/
def cutAt (mark : Char) (text : List Char) : List Char × List Char :=
  (text.takeWhile (· ≠ mark), (text.dropWhile (· ≠ mark)).drop 1)

/-- Whether a character may stand in a transition. -/
def isTransitionChar (c : Char) : Bool :=
  Text.isNameChar c || c == ',' || Text.isBlank c

/-- Whether a line has the shape of a transition. -/
def isTransitionShaped (text : List Char) : Bool :=
  text.contains ',' && text.all isTransitionChar

/-- The form of a line of a table, given without its comment. -/
def ofContent (text : List Char) : TableLine :=
  match declarationBody? text with
  | some body =>
    let (name, valueSet) := cutAt '=' body
    declaration (Text.trim name) (Text.trim valueSet)
  | none =>
    if text.count ':' = 1 then
      let (key, value) := cutAt ':' text
      parameter (Text.trim key) (Text.trim value)
    else if isTransitionShaped text then
      transition ((text.splitOn ',').map Text.squash)
    else
      unrecognized

end TableLine

end Cellular
