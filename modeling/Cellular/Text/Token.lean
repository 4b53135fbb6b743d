import Cellular.Text.Blank

/-!
# Tokens

The tokens of a rule table are decimal numerals and identifiers, both made of
ASCII characters only.  A numeral may start with zeros; its value is read
exactly, whatever its length, and a separate bound says which values are
states.
-/

namespace Cellular.Text

/-- Whether the text is a nonempty run of decimal digits. -/
def isNumeral (text : List Char) : Bool :=
  !text.isEmpty && text.all Char.isDigit

/-- The value of a decimal numeral. -/
def numeralValue (digits : List Char) : Nat :=
  Nat.ofDigitChars 10 digits 0

/-- The decimal numeral of a number, without leading zeros. -/
def numeral (n : Nat) : List Char :=
  Nat.toDigits 10 n

/-- Reading the numeral of a number gives the number back. -/
theorem numeralValue_numeral (n : Nat) : numeralValue (numeral n) = n :=
  Nat.ofDigitChars_toDigits (by decide) (by decide)

/-- The numbers that a numeral in a rule table may denote are those below
this bound, which is `2 ^ 32`. -/
def numeralBound : Nat := 4294967296

/-- The value of a numeral, if the text is one and its value is below
`numeralBound`. -/
def readNumeral (text : List Char) : Option Nat :=
  if isNumeral text && numeralValue text < numeralBound then
    some (numeralValue text)
  else
    none

/-- As `readNumeral`, but one plus sign may come before the digits. -/
def readSignedNumeral : List Char → Option Nat
  | '+' :: digits => readNumeral digits
  | digits => readNumeral digits

/-- The characters an identifier is made of. -/
def isNameChar (c : Char) : Bool :=
  c.isAlphanum || c == '_'

/-- Identifiers are nonempty, made of letters, digits and underscores, and not
made of digits alone. -/
def isIdentifier (text : List Char) : Bool :=
  !text.isEmpty && text.all isNameChar && !text.all Char.isDigit

/-- The text with ASCII capitals replaced by small letters. -/
def lowercase (text : List Char) : List Char :=
  text.map Char.toLower

end Cellular.Text
