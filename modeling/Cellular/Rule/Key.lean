import Cellular.Rule.Line

/-!
# The key of a rule table

Two rule tables that differ only in their layout have the same key: the text
with everything removed that cannot change the table built from it.  Comments,
blank lines and the lines outside the table section go; headers keep single
spaces; in the table section, a space stays only between two words neither of
which has a punctuation mark there.
-/

namespace Cellular

namespace Rule

/-- The marks next to which a space means nothing. -/
def isTight (c : Char) : Bool :=
  c == ',' || c == ':' || c == '=' || c == '\x7b' || c == '\x7d'

/-- Whether a space between two words can be left out. -/
def joinsTightly (left right : List Char) : Bool :=
  left.getLast?.any isTight || right.head?.any isTight

/-- Join words, with a space only where it means something. -/
def joinWords : List (List Char) → List Char
  | [] => []
  | [word] => word
  | left :: right :: rest =>
    if joinsTightly left right then left ++ joinWords (right :: rest)
    else left ++ ' ' :: joinWords (right :: rest)

/-- A line of the table section in its shortest layout. -/
def tightened (text : List Char) : List Char :=
  joinWords (Text.words (Line.uncommented text))

/-- A header in its shortest layout. -/
def tightenedHeader (text : List Char) : List Char :=
  Text.singleSpaced ('@' :: text)

/-- Whether a header opens the table section. -/
def opensTable (header : List Char) : Bool :=
  (Text.words header).head? = some "TABLE".toList

/-- The lines of the key.  `inTable` tells whether the first line is in the
table section. -/
def keyLines (inTable : Bool) : List (List Char) → List (List Char)
  | [] => []
  | raw :: rest =>
    match Line.classify raw with
    | .skipped => keyLines inTable rest
    | .header text => tightenedHeader text :: keyLines (opensTable text) rest
    | .content text =>
      if inTable then tightened text :: keyLines inTable rest
      else keyLines inTable rest

/-- The key of a rule table. -/
def key (text : String) : String :=
  String.ofList (['\n'].intercalate (keyLines true (Line.rawLines text.toList)))

end Rule

end Cellular
