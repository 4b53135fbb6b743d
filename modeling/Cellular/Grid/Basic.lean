import Cellular.Grid.BoundingBox
import Cellular.Grid.Transform

/-!
# Grids

A grid is a function from the points of the plane to states that is zero
outside a finite set.  It is kept as the list of its live cells, column by
column, so that two grids with the same states are equal.
-/

namespace Cellular

/-- The live cells of a plane: strictly ascending coordinates, none of them in
the background state. -/
structure Grid where
  cells : List (Coord × State)
  sorted : cells.Pairwise fun a b => a.1.Before b.1
  live : ∀ cell ∈ cells, cell.2 ≠ 0
deriving DecidableEq

namespace Grid

def empty : Grid where
  cells := []
  sorted := List.Pairwise.nil
  live := by simp

instance : Inhabited Grid := ⟨empty⟩

/-- The live coordinates, column by column. -/
def coords (g : Grid) : List Coord :=
  g.cells.map Prod.fst

/-- The state at a point. -/
def state (g : Grid) (c : Coord) : State :=
  (g.cells.lookup c).getD 0

def contains (g : Grid) (c : Coord) : Bool :=
  g.coords.contains c

/-- The number of live cells. -/
def population (g : Grid) : Nat :=
  g.cells.length

def isEmpty (g : Grid) : Bool :=
  g.cells.isEmpty

/-- The list of cells after the cell at `c` got the state `s`. -/
def insertCell (c : Coord) (s : State) :
    List (Coord × State) → List (Coord × State)
  | [] => [(c, s)]
  | cell :: rest =>
    if c.Before cell.1 then (c, s) :: cell :: rest
    else if c = cell.1 then (c, s) :: rest
    else cell :: insertCell c s rest

theorem eq_or_mem_of_mem_insertCell {c : Coord} {s : State}
    {cells : List (Coord × State)} {cell : Coord × State}
    (h : cell ∈ insertCell c s cells) : cell = (c, s) ∨ cell ∈ cells := by
  induction cells with
  | nil => simpa [insertCell] using h
  | cons first rest ih =>
    rw [insertCell] at h
    split at h
    · simpa using h
    · split at h
      · simp only [List.mem_cons] at h ⊢
        exact h.imp_right Or.inr
      · simp only [List.mem_cons] at h ⊢
        rcases h with h | h
        · exact Or.inr (Or.inl h)
        · exact (ih h).imp_right Or.inr

theorem sorted_insertCell {c : Coord} {s : State}
    {cells : List (Coord × State)}
    (h : cells.Pairwise fun a b => a.1.Before b.1) :
    (insertCell c s cells).Pairwise fun a b => a.1.Before b.1 := by
  induction cells with
  | nil => simp [insertCell]
  | cons first rest ih =>
    have hcons := h
    rw [List.pairwise_cons] at h
    rw [insertCell]
    split
    · rename_i hbefore
      refine List.pairwise_cons.2 ⟨fun cell hcell => ?_, hcons⟩
      rcases List.mem_cons.1 hcell with rfl | hcell
      · exact hbefore
      · exact hbefore.trans (h.1 cell hcell)
    · rename_i hbefore
      split
      · rename_i heq
        exact List.pairwise_cons.2 ⟨fun cell hcell => heq ▸ h.1 cell hcell, h.2⟩
      · rename_i hne
        refine List.pairwise_cons.2 ⟨fun cell hcell => ?_, ih h.2⟩
        rcases eq_or_mem_of_mem_insertCell hcell with rfl | hcell
        · exact Coord.before_of_not_before hbefore hne
        · exact h.1 cell hcell

/-- Put the cell at a point into the background. -/
def erase (g : Grid) (c : Coord) : Grid where
  cells := g.cells.filter fun cell => cell.1 ≠ c
  sorted := g.sorted.sublist List.filter_sublist
  live cell h := g.live cell (List.mem_filter.1 h).1

/-- Set the state at a point; the background state erases the cell. -/
def insert (g : Grid) (c : Coord) (s : State) : Grid :=
  if h : s = 0 then g.erase c
  else {
    cells := insertCell c s g.cells
    sorted := sorted_insertCell g.sorted
    live := fun cell hcell => by
      rcases eq_or_mem_of_mem_insertCell hcell with rfl | hcell
      · exact h
      · exact g.live cell hcell }

/-- Set the states of a list of cells in turn: later cells win. -/
def insertAll (g : Grid) (cells : List (Coord × State)) : Grid :=
  cells.foldl (fun g cell => g.insert cell.1 cell.2) g

/-- The grid of a list of cells, of which later ones win. -/
def ofCells (cells : List (Coord × State)) : Grid :=
  empty.insertAll cells

/-- The grid with state 1 at each of the given points. -/
def ofCoords (coords : List Coord) : Grid :=
  ofCells (coords.map fun c => (c, 1))

def boundingBox (g : Grid) : Except GridError BoundingBox :=
  BoundingBox.ofCoords g.coords

/-- The first of a point and the points of a list, in reading order. -/
def topmost (first : Coord) (rest : List Coord) : Coord :=
  rest.foldl (fun best c => if c.Above best then c else best) first

/-- The topmost live cell, and the leftmost of these. -/
def firstCell (g : Grid) : Option Coord :=
  match g.coords with
  | [] => none
  | c :: rest => some (topmost c rest)

/-- The grid with every cell moved by `f`, if all of them stay in the span. -/
def remap (g : Grid) (f : Coord → Coord) : Except GridError Grid :=
  if ∀ c ∈ g.coords, (f c).Fits then
    .ok (ofCells (g.cells.map fun cell => (f cell.1, cell.2)))
  else
    .error .coordinateOverflow

/-- The grid moved by a displacement. -/
def shifted (g : Grid) (d : Coord) : Except GridError Grid :=
  g.remap (· + d)

/-- The grid moved by a symmetry of the square. -/
def transformed (g : Grid) (t : Transform) : Except GridError Grid :=
  g.remap t.apply

/-- The grid moved so that its bounding box starts at the origin.  The empty
grid stays as it is. -/
def normalized (g : Grid) : Except GridError Grid :=
  match g.boundingBox with
  | .ok box => g.remap (· - box.corner)
  | .error .emptyPattern => .ok empty
  | .error e => .error e

/-- The grid with every live cell in state 1. -/
def presence (g : Grid) : Grid :=
  ofCoords g.coords

/-- The cells live in either grid, in state 1. -/
def union (g h : Grid) : Grid :=
  ofCoords (g.coords ++ h.coords)

/-- The cells live in the first grid alone, in state 1. -/
def difference (g h : Grid) : Grid :=
  ofCoords (g.coords.filter fun c => !h.contains c)

/-- The cells live in exactly one of the grids, in state 1. -/
def symmetricDifference (g h : Grid) : Grid :=
  ofCoords ((g.coords.filter fun c => !h.contains c) ++
    h.coords.filter fun c => !g.contains c)

end Grid

end Cellular
