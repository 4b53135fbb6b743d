import Cellular.Grid.Coord
import Cellular.Grid.Error

/-!
# Bounding boxes

The least upright rectangle that holds every cell of a nonempty list of
coordinates.  A box is kept as its least corner and its numbers of columns and
rows; a list whose columns or rows number more than `Coord.greatest` has none.
-/

namespace Cellular

/-- An upright rectangle of cells, by its least corner and its extents. -/
structure BoundingBox where
  x : Int
  y : Int
  width : Int
  height : Int
deriving DecidableEq

namespace BoundingBox

/-- The number of cells from `first` to `last` on one axis, if it is within
the span. -/
def extent (first last : Int) : Except GridError Int :=
  if last - first + 1 ≤ Coord.greatest then
    .ok (last - first + 1)
  else
    .error .coordinateOverflow

/-- The least of a number and the numbers of a list. -/
def leastOf (first : Int) (rest : List Int) : Int :=
  rest.foldl min first

/-- The greatest of a number and the numbers of a list. -/
def greatestOf (first : Int) (rest : List Int) : Int :=
  rest.foldl max first

/-- The bounding box of a list of coordinates. -/
def ofCoords : List Coord → Except GridError BoundingBox
  | [] => .error .emptyPattern
  | c :: rest => do
    let left := leastOf c.x (rest.map Coord.x)
    let top := leastOf c.y (rest.map Coord.y)
    let width ← extent left (greatestOf c.x (rest.map Coord.x))
    let height ← extent top (greatestOf c.y (rest.map Coord.y))
    return ⟨left, top, width, height⟩

def maxX (box : BoundingBox) : Int :=
  box.x + (box.width - 1)

def maxY (box : BoundingBox) : Int :=
  box.y + (box.height - 1)

def corner (box : BoundingBox) : Coord where
  x := box.x
  y := box.y

/-- Whether a point lies in the box, edges included. -/
def contains (box : BoundingBox) (c : Coord) : Bool :=
  box.x ≤ c.x && c.x ≤ box.maxX && box.y ≤ c.y && c.y ≤ box.maxY

def area (box : BoundingBox) : Nat :=
  box.width.natAbs * box.height.natAbs

end BoundingBox

end Cellular
