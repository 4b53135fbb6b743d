import Cellular.Pattern.Apgcode.Reader
import Cellular.Pattern.Orientation

/-!
# Writing apgcodes

The code of a pattern in its present orientation, and the first of the codes of
its eight orientations, which names the pattern.
-/

namespace Cellular

namespace Apgcode

/-- The tokens for a run of blank columns.  The longest single token covers 39
of them. -/
def blankTokens (run : Nat) : List CodeToken :=
  List.replicate (run / 39) (.blankRun 35) ++
    match run % 39 with
    | 0 => []
    | 1 => [.column 0]
    | 2 => [.blankPair]
    | 3 => [.blankTriple]
    | rest => [.blankRun (Fin.ofNat 36 (rest - 4))]

/-- The live cells of a band. -/
def bandCells (band : Nat) (coords : List Coord) : List Coord :=
  coords.filter fun c => c.y / bandHeight = band

/-- The bits of a column, whose live cells are among those given. -/
def columnBits (band : Nat) (cells : List Coord) (x : Int) : Fin 32 :=
  Fin.ofNat 32 (((List.range bandHeight).map fun h =>
    if cells.contains ⟨x, bandRow band h⟩ then Nat.pow 2 h else 0).foldr (· + ·) 0)

/-- The columns of a band that are not blank, from the left. -/
def bandColumns (band : Nat) (cells : List Coord) : List (Nat × Fin 32) :=
  (cells.map Coord.x).eraseDups.map fun x =>
    (x.toNat, columnBits band cells x)

/-- The tokens of columns in ascending order, of which those before `x` are
written. -/
def columnTokens (x : Nat) : List (Nat × Fin 32) → List CodeToken
  | [] => []
  | (column, bits) :: rest =>
    blankTokens (column - x) ++ .column bits :: columnTokens (column + 1) rest

/-- The tokens of a band. -/
def bandTokens (coords : List Coord) (band : Nat) : List CodeToken :=
  columnTokens 0 (bandColumns band (bandCells band coords))

/-- The number of bands of a pattern with the given height. -/
def bandCount (height : Int) : Nat :=
  ((height - 1) / bandHeight + 1).toNat

/-- The tokens of a pattern at the origin, with the given number of bands. -/
def patternTokens (coords : List Coord) (bands : Nat) : List CodeToken :=
  [.endBand].intercalate ((List.range bands).map (bandTokens coords))

/-- The code of a pattern in its present orientation. -/
def ofGrid (g : Grid) : Except GridError Apgcode := do
  let h ← g.normalized
  if h.isEmpty then
    return blank
  else
    let box ← h.boundingBox
    return ofTokens (patternTokens h.coords (bandCount box.height))

/-- The codes of the grids of a list. -/
def ofGrids : List (Transform × Grid) → Except GridError (List Apgcode)
  | [] => .ok []
  | (_, g) :: rest => do
    let code ← ofGrid g
    let others ← ofGrids rest
    return code :: others

/-- The first of the codes of all orientations of a pattern. -/
def minimal (g : Grid) : Except GridError Apgcode := do
  match ← ofGrids (← g.orientations) with
  | [] => return blank
  | first :: rest => return rest.foldl earlier first

end Apgcode

end Cellular
