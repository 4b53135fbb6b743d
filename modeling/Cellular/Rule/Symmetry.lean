import Cellular.Rule.Arrangement
import Cellular.Rule.Ring
import Cellular.Text.Token

/-!
# Symmetries of a rule table

A rule table declares which rearrangements of the neighbours a clause stands
for.  Each symmetry lists the different rings it makes of one ring, in a fixed
order: a later ring overwrites an earlier one when a table is built, so the
order can be seen.
-/

namespace Cellular

/-- The rearrangements of the neighbours that a rule table may declare. -/
inductive Symmetry where
  /-- Clauses apply as written. -/
  | none
  /-- Any arrangement of the neighbours. -/
  | permute
  /-- The four quarter turns. -/
  | rotate4
  /-- Quarter turns and reflections. -/
  | rotate4reflect
  /-- The eight cyclic shifts. -/
  | rotate8
deriving DecidableEq

namespace Symmetry

def all : List Symmetry :=
  [none, permute, rotate4, rotate4reflect, rotate8]

def name : Symmetry → String
  | none => "none"
  | permute => "permute"
  | rotate4 => "rotate4"
  | rotate4reflect => "rotate4reflect"
  | rotate8 => "rotate8"

/-- The symmetry of a name, in any case and with blanks around it. -/
def ofName? (text : List Char) : Option Symmetry :=
  all.find? fun symmetry =>
    symmetry.name.toList = Text.lowercase (Text.trim text)

section Orbit

variable {α : Type} [DecidableEq α]

/-- The different arrangements of a ring. -/
def arrangedRings (ring : Ring α) : List (Ring α) :=
  (arrangements ring.cells).attach.map fun cells =>
    ⟨cells.1, by rw [length_of_mem_arrangements cells.2, ring.length_cells]⟩

omit [DecidableEq α] in
/-- A ring and its three further quarter turns. -/
def turnedRings (ring : Ring α) : List (Ring α) :=
  [ring, ring.quarterTurn, ring.quarterTurn.quarterTurn,
   ring.quarterTurn.quarterTurn.quarterTurn]

/-- The rings a symmetry makes of one ring, without repetition. -/
def orbit (symmetry : Symmetry) (ring : Ring α) : List (Ring α) :=
  match symmetry with
  | none => [ring]
  | permute => arrangedRings ring
  | rotate4 => (turnedRings ring).eraseDups
  | rotate4reflect =>
    (turnedRings ring.quarterTurn ++
      turnedRings ring.reflect.quarterTurn).eraseDups
  | rotate8 => ((List.range 8).map fun k => ring.shift k).eraseDups

end Orbit

end Symmetry

end Cellular
