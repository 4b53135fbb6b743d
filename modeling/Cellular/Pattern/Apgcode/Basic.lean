/-!
# Apgcodes

An apgcode writes a pattern in digits and small letters.  Rows are taken in
bands of five, from the top; within a band each column is a digit in base 32
whose bits are the five cells of the column, the topmost being the lowest bit.
Runs of blank columns have shorter forms, and a `z` ends a band.  A code is kept
as the tokens it is made of.
-/

namespace Cellular

/-- There are columns for the literals to name. -/
instance neZeroColumns : @NeZero Nat Zero.ofOfNat0 32 := ⟨by decide⟩

/-- There are digits for the literals to name. -/
instance neZeroDigits : @NeZero Nat Zero.ofOfNat0 36 := ⟨by decide⟩

/-- The tokens of a code. -/
inductive CodeToken where
  /-- A column of a band, by its bits. -/
  | column (bits : Fin 32)
  /-- Two blank columns. -/
  | blankPair
  /-- Three blank columns. -/
  | blankTriple
  /-- Blank columns, four more than the number given. -/
  | blankRun (more : Fin 36)
  /-- The end of a band. -/
  | endBand
deriving DecidableEq

/-- The digit for a value below 36. -/
def codeDigit (value : Nat) : Char :=
  if value < 10 then Char.ofNat (48 + value) else Char.ofNat (87 + value)

/-- The value of a digit. -/
def codeDigitValue? (c : Char) : Option (Fin 36) :=
  if h : 48 ≤ c.toNat ∧ c.toNat ≤ 57 then
    some ⟨c.toNat - 48, by omega⟩
  else if h : 97 ≤ c.toNat ∧ c.toNat ≤ 122 then
    some ⟨c.toNat - 87, by omega⟩
  else
    none

namespace CodeToken

/-- The characters of a token. -/
def write : CodeToken → List Char
  | column bits => [codeDigit bits]
  | blankPair => ['w']
  | blankTriple => ['x']
  | blankRun more => ['y', codeDigit more]
  | endBand => ['z']

/-- The token of a single character. -/
def ofChar? (c : Char) : Option CodeToken :=
  if c = 'w' then some blankPair
  else if c = 'x' then some blankTriple
  else if c = 'z' then some endBand
  else
    match codeDigitValue? c with
    | none => none
    | some value =>
      if h : value.val < 32 then some (column ⟨value.val, h⟩) else none

end CodeToken

/-- A nonempty list of tokens. -/
structure Apgcode where
  tokens : List CodeToken
  nonempty : tokens ≠ []
deriving DecidableEq

namespace Apgcode

/-- The characters of a code. -/
def text (code : Apgcode) : List Char :=
  code.tokens.flatMap CodeToken.write

def blank : Apgcode where
  tokens := [.column 0]
  nonempty := by simp

/-- The code of a list of tokens; the empty list stands for the empty
pattern. -/
def ofTokens (tokens : List CodeToken) : Apgcode :=
  if h : tokens = [] then blank else ⟨tokens, h⟩

/-- Shorter codes come first, and codes of one length in the order of
dictionaries. -/
def Before (a b : Apgcode) : Prop :=
  a.text.length < b.text.length ∨
    a.text.length = b.text.length ∧ a.text < b.text

instance (a b : Apgcode) : Decidable (a.Before b) :=
  inferInstanceAs (Decidable (_ ∨ _))

/-- The order of two codes. -/
def compare (a b : Apgcode) : Ordering :=
  if a.Before b then .lt else if b.Before a then .gt else .eq

/-- The earlier of two codes, the first one on a tie. -/
def earlier (a b : Apgcode) : Apgcode :=
  if b.Before a then b else a

/-- Codes in ascending order. -/
def sort (codes : List Apgcode) : List Apgcode :=
  codes.mergeSort fun a b => !decide (b.Before a)

end Apgcode

end Cellular
