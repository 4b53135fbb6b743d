import Cellular.Pattern.Digest

/-!
# Orientations

A pattern is the same in eight orientations and at every position.  Its
orientations are compared by their digests, and the one with the smallest
digest is its canonical form; of several such the first one is taken.
-/

namespace Cellular

/-- A pattern in its canonical orientation. -/
structure Canonical where
  /-- The symmetry that takes the pattern to the canonical form, up to
  position. -/
  transform : Transform
  grid : Grid
  digest : Digest
deriving DecidableEq

namespace Grid

/-- The symmetries in the order in which orientations are listed: the four
rotations, and the reflection in the y axis followed by one, two, three and no
quarter turns. -/
def orientationOrder : List Transform :=
  [.identity, .rot90, .rot180, .rot270,
   .flipAntiDiagonal, .flipY, .flipDiagonal, .flipX]

/-- A grid in the orientation of a symmetry, at the origin. -/
def oriented (g : Grid) (t : Transform) : Except GridError Grid := do
  let turned ← g.transformed t
  turned.normalized

/-- The pattern in the orientations of some symmetries, given at the origin. -/
def orientedAll (g : Grid) :
    List Transform → Except GridError (List (Transform × Grid))
  | [] => .ok []
  | t :: rest => do
    let turned ← g.oriented t
    let others ← g.orientedAll rest
    return (t, turned) :: others

/-- The pattern in all eight orientations, at the origin and in state 1. -/
def orientations (g : Grid) : Except GridError (List (Transform × Grid)) := do
  let base ← g.presence.normalized
  base.orientedAll orientationOrder

/-- The digests of the grids of a list. -/
def digestsBy (hash : Coord → Digest) :
    List (Transform × Grid) → Except GridError (List Digest)
  | [] => .ok []
  | (_, g) :: rest => do
    let digest ← g.digestBy hash
    let others ← digestsBy hash rest
    return digest :: others

def orientationDigestsBy (hash : Coord → Digest) (g : Grid) :
    Except GridError (List Digest) := do
  let turned ← g.orientations
  digestsBy hash turned

/-- The candidate with the smallest digest, the first one on a tie. -/
def smallest (best : Canonical) (candidates : List Canonical) : Canonical :=
  candidates.foldl
    (fun best next => if next.digest < best.digest then next else best) best

def emptyCanonical : Canonical where
  transform := .identity
  grid := empty
  digest := 0

/-- The canonical form of a pattern, by the hash of its cells. -/
def canonicalizeBy (hash : Coord → Digest) (g : Grid) :
    Except GridError Canonical := do
  let turned ← g.orientations
  let digests ← digestsBy hash turned
  let candidates := (turned.zip digests).map fun ((t, h), d) => ⟨t, h, d⟩
  match candidates with
  | [] => return emptyCanonical
  | first :: rest => return smallest first rest

/-- The smallest digest of the orientations. -/
def canonicalDigestBy (hash : Coord → Digest) (g : Grid) :
    Except GridError Digest :=
  (g.canonicalizeBy hash).map Canonical.digest

/-- The sum of the digests of all orientations. -/
def symmetricDigestBy (hash : Coord → Digest) (g : Grid) :
    Except GridError Digest :=
  (g.orientationDigestsBy hash).map fun digests => digests.foldr (· + ·) 0

/-- Whether two grids are the same pattern, by the hash of their cells: they
have the same number of cells and the same canonical form. -/
def samePatternBy (hash : Coord → Digest) (g h : Grid) :
    Except GridError Bool :=
  if g.population ≠ h.population then .ok false
  else do
    let a ← g.canonicalizeBy hash
    let b ← h.canonicalizeBy hash
    return decide (a.grid = b.grid)

/-- The symmetries that leave the pattern as it is, up to position. -/
def automorphisms (g : Grid) : Except GridError (List Transform) := do
  let turned ← g.orientations
  let base := turned.head?.map Prod.snd
  return (turned.filter fun (_, h) => some h = base).map Prod.fst

def orientationDigests (g : Grid) : Except GridError (List Digest) :=
  g.orientationDigestsBy Digest.ofCoord

def canonicalize (g : Grid) : Except GridError Canonical :=
  g.canonicalizeBy Digest.ofCoord

/-- The smallest digest of the orientations. -/
def canonicalDigest (g : Grid) : Except GridError Digest :=
  g.canonicalDigestBy Digest.ofCoord

/-- The sum of the digests of all orientations. -/
def symmetricDigest (g : Grid) : Except GridError Digest :=
  g.symmetricDigestBy Digest.ofCoord

def samePattern (g h : Grid) : Except GridError Bool :=
  g.samePatternBy Digest.ofCoord h

end Grid

end Cellular
