/-!
# The ring of neighbours

The eight neighbours of a cell are listed clockwise.  A rule table only ever
rearranges the places of this ring, so the ring is kept as a list of known
length and every motion of it as a map of places.
-/

namespace Cellular

/-- There are places for the literals to name. -/
instance neZeroPlaces : @NeZero Nat Zero.ofOfNat0 8 := ⟨by decide⟩

/-- Eight values, one for each neighbour of a cell, clockwise. -/
structure Ring (α : Type) where
  cells : List α
  length_cells : cells.length = 8
deriving DecidableEq

namespace Ring

variable {α β : Type}

/-- The value at a place. -/
def get (ring : Ring α) (place : Fin 8) : α :=
  have hplace : place.val < ring.cells.length := by
    rw [ring.length_cells]
    exact place.isLt
  ring.cells[place.val]

/-- The ring with every value replaced by its image. -/
def map (f : α → β) (ring : Ring α) : Ring β where
  cells := ring.cells.map f
  length_cells := by rw [List.length_map, ring.length_cells]

/-- The ring whose value at each place is the old value at the place that
`source` names. -/
def reindex (source : Fin 8 → Fin 8) (ring : Ring α) : Ring α where
  cells := (List.finRange 8).map fun place => ring.get (source place)
  length_cells := by rw [List.length_map, List.length_finRange]

/-- The ring turned by `k` places: place `n` takes the value of place
`n + k`. -/
def shift (k : Nat) (ring : Ring α) : Ring α :=
  ring.reindex (· + Fin.ofNat 8 k)

/-- A quarter turn clockwise moves every value on by two places. -/
def quarterTurn (ring : Ring α) : Ring α :=
  ring.shift 6

/-- The ring reflected in the horizontal axis. -/
def reflect (ring : Ring α) : Ring α :=
  ring.reindex (4 - ·)

theorem ext_get {r s : Ring α} (h : ∀ place, r.get place = s.get place) :
    r = s := by
  have hcells : r.cells = s.cells := by
    refine List.ext_get (by rw [r.length_cells, s.length_cells]) ?_
    intro n hr hs
    exact h ⟨n, r.length_cells ▸ hr⟩
  cases r
  cases s
  cases hcells
  rfl

@[simp]
theorem get_map (f : α → β) (ring : Ring α) (place : Fin 8) :
    (ring.map f).get place = f (ring.get place) := by
  simp [map, get]

@[simp]
theorem get_reindex (source : Fin 8 → Fin 8) (ring : Ring α) (place : Fin 8) :
    (ring.reindex source).get place = ring.get (source place) := by
  simp [reindex, get]

theorem reindex_reindex (f g : Fin 8 → Fin 8) (ring : Ring α) :
    (ring.reindex f).reindex g = ring.reindex (f ∘ g) :=
  ext_get fun place => by simp

theorem map_reindex (f : α → β) (source : Fin 8 → Fin 8) (ring : Ring α) :
    (ring.reindex source).map f = (ring.map f).reindex source :=
  ext_get fun place => by simp

/-- The ring of a list of eight values. -/
def ofList? (cells : List α) : Option (Ring α) :=
  if h : cells.length = 8 then some ⟨cells, h⟩ else none

end Ring

end Cellular
