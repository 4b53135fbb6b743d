/-!
# Blank characters

Rule tables are read line by line, and every rule about spacing is stated with
one class of characters: those with the Unicode property `White_Space`.  This
module holds that class and the operations built on it, on lists of characters:
trimming, cutting into words, and writing the words back with single spaces.
-/

namespace Cellular.Text

/-- The code points with the Unicode property `White_Space`, as closed ranges
in ascending order. -/
def blankRanges : List (Nat × Nat) :=
  [(0x0009, 0x000D), (0x0020, 0x0020), (0x0085, 0x0085), (0x00A0, 0x00A0),
   (0x1680, 0x1680), (0x2000, 0x200A), (0x2028, 0x2029), (0x202F, 0x202F),
   (0x205F, 0x205F), (0x3000, 0x3000)]

/-- Whether a character has the property `White_Space`. -/
def isBlank (c : Char) : Bool :=
  blankRanges.any fun (first, last) => first ≤ c.toNat && c.toNat ≤ last

/-- The text without its leading blanks. -/
def trimStart (text : List Char) : List Char :=
  text.dropWhile isBlank

/-- The text without its trailing blanks. -/
def trimEnd (text : List Char) : List Char :=
  (text.reverse.dropWhile isBlank).reverse

/-- The text without its leading and trailing blanks. -/
def trim (text : List Char) : List Char :=
  trimEnd (trimStart text)

/-- The text without any of its blanks. -/
def squash (text : List Char) : List Char :=
  text.filter fun c => !isBlank c

/-- The maximal runs of characters that are not blank, in order. -/
def words (text : List Char) : List (List Char) :=
  (text.splitOnP isBlank).filter fun word => !word.isEmpty

/-- The words of the text with one space between neighbours. -/
def singleSpaced (text : List Char) : List Char :=
  [' '].intercalate (words text)

@[simp]
theorem trimStart_nil : trimStart [] = [] := rfl

@[simp]
theorem trimEnd_nil : trimEnd [] = [] := rfl

@[simp]
theorem trim_nil : trim [] = [] := rfl

/-- No word is empty. -/
theorem ne_nil_of_mem_words {text word : List Char} (h : word ∈ words text) :
    word ≠ [] := by
  simp only [words, List.mem_filter] at h
  intro hnil
  simp [hnil] at h

end Cellular.Text
