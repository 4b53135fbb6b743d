import Cellular.Grid.Basic
import Cellular.Pattern.Apgcode.Basic

/-!
# Reading apgcodes

A text is an apgcode if it is a nonempty sequence of tokens.  The first
character that fits no token is named with its position, counted in bytes; all
characters before it are ASCII, so that is their number.
-/

namespace Cellular

/-- What is wrong with a text that is no apgcode. -/
inductive CodeFault where
  | emptyText
  | missingRunLength
  | badRunLength (c : Char)
  | unexpected (c : Char)
deriving DecidableEq

/-- A fault of an apgcode, with the position at which it was found. -/
structure CodeError where
  position : Nat
  fault : CodeFault
deriving DecidableEq

namespace CodeFault

/-- The first byte of a character's encoding. -/
def firstByte (c : Char) : Nat :=
  match String.utf8EncodeChar c with
  | [] => 0
  | byte :: _ => byte.toNat

/-- A byte in quotes, shown as the character with its number.  Control
characters, the quote and the backslash are escaped. -/
def quoted (byte : Nat) : String :=
  let shown :=
    if byte = 0 then "\\0"
    else if byte = 9 then "\\t"
    else if byte = 10 then "\\n"
    else if byte = 13 then "\\r"
    else if byte = 39 then "\\'"
    else if byte = 92 then "\\\\"
    else if byte < 32 ∨ 127 ≤ byte ∧ byte < 160 then
      "\\u\x7b" ++ String.ofList (Nat.toDigits 16 byte) ++ "\x7d"
    else String.singleton (Char.ofNat byte)
  "'" ++ shown ++ "'"

def message : CodeFault → String
  | emptyText => "empty apgcode"
  | missingRunLength => "'y' must be followed by a run length"
  | badRunLength c => "invalid run length " ++ quoted (firstByte c)
  | unexpected c => "unexpected character " ++ quoted (firstByte c)

end CodeFault

def CodeError.message (e : CodeError) : String :=
  "invalid apgcode at byte " ++ toString e.position ++ ": " ++ e.fault.message

namespace Apgcode

/-- The tokens of a text whose first character is at position `start`. -/
def readTokens (start : Nat) : List Char → Except CodeError (List CodeToken)
  | [] => .ok []
  | 'y' :: [] => .error ⟨start + 1, .missingRunLength⟩
  | 'y' :: c :: rest =>
    match codeDigitValue? c with
    | none => .error ⟨start + 1, .badRunLength c⟩
    | some more => (readTokens (start + 2) rest).map (.blankRun more :: ·)
  | c :: rest =>
    match CodeToken.ofChar? c with
    | none => .error ⟨start, .unexpected c⟩
    | some token => (readTokens (start + 1) rest).map (token :: ·)

private theorem codeDigitValue?_codeDigit (value : Fin 36) :
    codeDigitValue? (codeDigit value) = some value := by
  revert value
  decide

private theorem ofChar?_codeDigit (bits : Fin 32) :
    CodeToken.ofChar? (codeDigit bits) = some (.column bits) := by
  revert bits
  decide

private theorem codeDigit_ne_run (bits : Fin 32) : codeDigit bits ≠ 'y' := by
  revert bits
  decide

theorem readTokens_write (start : Nat) (tokens : List CodeToken) :
    readTokens start (tokens.flatMap CodeToken.write) = .ok tokens := by
  induction tokens generalizing start with
  | nil => rfl
  | cons token rest ih =>
    rw [List.flatMap_cons]
    cases token with
    | column bits =>
      have hnotRun := codeDigit_ne_run bits
      simp [CodeToken.write, readTokens, hnotRun, ofChar?_codeDigit, ih,
        Except.map]
    | blankRun more =>
      simp [CodeToken.write, readTokens, codeDigitValue?_codeDigit, ih,
        Except.map]
    | blankPair | blankTriple | endBand =>
      simp [CodeToken.write, readTokens, CodeToken.ofChar?, ih, Except.map]

/-- The code of a text. -/
def ofText (text : List Char) : Except CodeError Apgcode :=
  match readTokens 0 text with
  | .error e => .error e
  | .ok tokens =>
    if h : tokens = [] then .error ⟨0, .emptyText⟩ else .ok ⟨tokens, h⟩

/-- Reading what a code says gives the code back. -/
theorem ofText_text (code : Apgcode) : ofText code.text = .ok code := by
  rw [ofText, text, readTokens_write]
  simp [code.nonempty]

/-- The code of a string. -/
def parse (text : String) : Except CodeError Apgcode :=
  ofText text.toList

def bandHeight : Nat := 5

/-- The row at height `h` of a band. -/
def bandRow (band h : Nat) : Int :=
  (band : Int) * bandHeight + h

/-- The live cells of a column. -/
def columnCells (band x : Nat) (bits : Fin 32) : List Coord :=
  ((List.range bandHeight).filter fun h => bits.val.testBit h).map fun h =>
    ⟨x, bandRow band h⟩

/-- The live cells that tokens describe, from a column of a band on. -/
def cellsFrom (band x : Nat) : List CodeToken → List Coord
  | [] => []
  | .column bits :: rest =>
    columnCells band x bits ++ cellsFrom band (x + 1) rest
  | .blankPair :: rest => cellsFrom band (x + 2) rest
  | .blankTriple :: rest => cellsFrom band (x + 3) rest
  | .blankRun more :: rest => cellsFrom band (x + (4 + more.val)) rest
  | .endBand :: rest => cellsFrom (band + 1) 0 rest

/-- The pattern of a code, with its first band at row 0. -/
def toGrid (code : Apgcode) : Grid :=
  .ofCoords (cellsFrom 0 0 code.tokens)

/-- Whether a code describes no live cell. -/
def isEmptyPattern (code : Apgcode) : Bool :=
  code.toGrid.isEmpty

/-- The pattern of a text. -/
def decode (text : String) : Except CodeError Grid :=
  (parse text).map toGrid

end Apgcode

end Cellular
