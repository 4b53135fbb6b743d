import Cellular.Grid.Basic
import Cellular.Pattern.Sha1

/-!
# Digests

The digest of a pattern is the sum of a hash over its cells, taken after the
pattern was moved to the origin: it depends neither on the position of the
pattern nor on the order of its cells.  The hash of a cell is a parameter, so
that what holds of digests can be said for every hash; the one in use is SHA-1
of the coordinates in writing.
-/

namespace Cellular

/-- The sum of the hashes of some cells. -/
abbrev Digest := Nat

namespace Digest

/-- The number that a list of bytes says, the least significant byte first. -/
def ofBytes : List UInt8 → Nat
  | [] => 0
  | byte :: rest => byte.toNat + 256 * ofBytes rest

/-- A coordinate in writing. -/
def coordText (c : Coord) : String :=
  "(" ++ toString c.x ++ ", " ++ toString c.y ++ ")"

/-- The hash of a coordinate. -/
def ofCoord (c : Coord) : Digest :=
  ofBytes (Sha1.digest (coordText c).toUTF8.toList)

/-- The digest of the cells of a grid as they stand. -/
def sumOver (hash : Coord → Digest) (coords : List Coord) : Digest :=
  (coords.map hash).foldr (· + ·) 0

def hex (d : Digest) : String :=
  String.ofList (Nat.toDigits 16 d)

end Digest

namespace Grid

/-- The digest of a grid in its present orientation, by the hash of its
cells. -/
def digestBy (hash : Coord → Digest) (g : Grid) : Except GridError Digest :=
  g.normalized.map fun h => Digest.sumOver hash h.coords

/-- The digest of a grid in its present orientation. -/
def digest (g : Grid) : Except GridError Digest :=
  g.digestBy Digest.ofCoord

end Grid

end Cellular
