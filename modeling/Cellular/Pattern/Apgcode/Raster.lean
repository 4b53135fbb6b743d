import Cellular.Pattern.Apgcode.Writer

/-!
# Writing cell by cell

The code of a pattern can be written without its list of cells, by looking into every
cell of its bounding box, band after band and in a band column after column.  The row
of a cell is computed from its band and its height there.  A computation that does not
give a row ends the writing.
-/

namespace Cellular

namespace Apgcode

/-- The bits of a column, if the rows of all its cells are found. -/
def rasterColumn? (row? : Nat → Nat → Option Int) (g : Grid) (band : Nat) (x : Int) :
    Option (Fin 32) :=
  ((List.range bandHeight).mapM fun h =>
    (row? band h).map fun row => if g.contains ⟨x, row⟩ then Nat.pow 2 h else 0).map
      fun bits => Fin.ofNat 32 (bits.foldr (· + ·) 0)

/-- Some columns without the blank ones at their end. -/
def trimBlanks (columns : List (Fin 32)) : List (Fin 32) :=
  (columns.reverse.dropWhile (· = 0)).reverse

/-- The tokens of some columns, blank ones among them, after a run of blank columns. -/
def rasterTokens (run : Nat) : List (Fin 32) → List CodeToken
  | [] => []
  | bits :: rest =>
    if bits = 0 then rasterTokens (run + 1) rest
    else blankTokens run ++ .column bits :: rasterTokens 0 rest

/-- The tokens of a band with so many columns. -/
def rasterBand? (row? : Nat → Nat → Option Int) (g : Grid) (width : Int) (band : Nat) :
    Option (List CodeToken) :=
  ((List.range width.toNat).mapM fun x : Nat => rasterColumn? row? g band x).map
    fun columns => rasterTokens 0 (trimBlanks columns)

/-- The tokens of a pattern at the origin with the given bounding box. -/
def rasterPattern? (row? : Nat → Nat → Option Int) (g : Grid) (box : BoundingBox) :
    Option (List CodeToken) :=
  ((List.range (bandCount box.height)).mapM (rasterBand? row? g box.width)).map
    [.endBand].intercalate

/-- The code of a pattern in its present orientation, written cell by cell.  There is
no result if the writing ends at a row. -/
def raster? (row? : Nat → Nat → Option Int) (g : Grid) : Option (Except GridError Apgcode) :=
  match g.normalized with
  | .error e => some (.error e)
  | .ok h =>
    if h.isEmpty then some (.ok blank)
    else
      match h.boundingBox with
      | .error e => some (.error e)
      | .ok box => (rasterPattern? row? h box).map fun tokens => .ok (ofTokens tokens)

/-- The codes of the grids of a list, written one after the other. -/
def rasters? (row? : Nat → Nat → Option Int) :
    List (Transform × Grid) → Option (Except GridError (List Apgcode))
  | [] => some (.ok [])
  | (_, g) :: rest =>
    match raster? row? g with
    | none => none
    | some (.error e) => some (.error e)
    | some (.ok code) => (rasters? row? rest).map fun others => others.map (code :: ·)

/-- The first of the codes of all orientations of a pattern, written cell by cell. -/
def rasterMinimal? (row? : Nat → Nat → Option Int) (g : Grid) :
    Option (Except GridError Apgcode) :=
  match g.orientations with
  | .error e => some (.error e)
  | .ok turned =>
    (rasters? row? turned).map fun codes =>
      codes.map fun
        | [] => blank
        | first :: rest => rest.foldl earlier first

end Apgcode

end Cellular
