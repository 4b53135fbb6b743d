import Cellular.Grid.Coord
import Cellular.Grid.Error
import Cellular.Text.Token

/-!
# The symmetries of the square

The eight motions of the plane that fix the origin and permute the axes.  Each
is an optional reflection in the y axis followed by zero to three quarter turns;
composition is computed on that decomposition, while a motion acts on
coordinates by its own formula.
-/

namespace Cellular

/-- A symmetry of the square. -/
inductive Transform where
  | identity
  /-- Quarter turn, from the x axis towards the y axis. -/
  | rot90
  /-- Half turn. -/
  | rot180
  /-- Three quarter turns. -/
  | rot270
  /-- Reflection in the y axis. -/
  | flipX
  /-- Reflection in the x axis. -/
  | flipY
  /-- Reflection in the main diagonal. -/
  | flipDiagonal
  /-- Reflection in the other diagonal. -/
  | flipAntiDiagonal
deriving DecidableEq

namespace Transform

def all : List Transform :=
  [identity, rot90, rot180, rot270, flipX, flipY, flipDiagonal,
   flipAntiDiagonal]

/-- The symmetry as a map of the plane. -/
def apply : Transform → Coord → Coord
  | identity, c => c
  | rot90, c => ⟨-c.y, c.x⟩
  | rot180, c => ⟨-c.x, -c.y⟩
  | rot270, c => ⟨c.y, -c.x⟩
  | flipX, c => ⟨-c.x, c.y⟩
  | flipY, c => ⟨c.x, -c.y⟩
  | flipDiagonal, c => ⟨c.y, c.x⟩
  | flipAntiDiagonal, c => ⟨-c.y, -c.x⟩

/-- The image of a point, if it is within the span. -/
def image? (t : Transform) (c : Coord) : Option Coord :=
  if (t.apply c).Fits then some (t.apply c) else none

/-- The number of quarter turns after the reflection. -/
def turns : Transform → Nat
  | identity | flipX => 0
  | rot90 | flipAntiDiagonal => 1
  | rot180 | flipY => 2
  | rot270 | flipDiagonal => 3

/-- Whether the symmetry begins with a reflection, and so reverses orientation. -/
def isReflection : Transform → Bool
  | identity | rot90 | rot180 | rot270 => false
  | flipX | flipY | flipDiagonal | flipAntiDiagonal => true

/-- The symmetry made of an optional reflection and a number of quarter
turns. -/
def ofParts (reflected : Bool) (turns : Nat) : Transform :=
  match reflected, turns % 4 with
  | false, 0 => identity
  | false, 1 => rot90
  | false, 2 => rot180
  | false, _ => rot270
  | true, 0 => flipX
  | true, 1 => flipAntiDiagonal
  | true, 2 => flipY
  | true, _ => flipDiagonal

/-- The symmetry that applies `t` first and `u` second.  A reflection in
`u` reverses the sense of the quarter turns of `t`. -/
def andThen (t u : Transform) : Transform :=
  if u.isReflection then
    ofParts (!t.isReflection) (u.turns + (4 - t.turns))
  else
    ofParts t.isReflection (u.turns + t.turns)

/-- The symmetry that undoes `t`. -/
def inverse : Transform → Transform
  | rot90 => rot270
  | rot270 => rot90
  | t => t

/-- Composition on the parts is composition of the maps. -/
theorem apply_andThen (t u : Transform) (c : Coord) :
    (t.andThen u).apply c = u.apply (t.apply c) := by
  cases t <;> cases u <;> simp [andThen, ofParts, turns, isReflection, apply]

theorem apply_inverse (t : Transform) (c : Coord) :
    t.inverse.apply (t.apply c) = c := by
  cases t <;> simp [inverse, apply]

def name : Transform → String
  | identity => "identity"
  | rot90 => "rot_90"
  | rot180 => "rot_180"
  | rot270 => "rot_270"
  | flipX => "flip_x"
  | flipY => "flip_y"
  | flipDiagonal => "flip_diagonal"
  | flipAntiDiagonal => "flip_antidiagonal"

/-- Further names under which a symmetry is known. -/
def aliases : List (String × Transform) :=
  [("rcw", rot90), ("flip_xy", rot180), ("rccw", rot270)]

/-- The symmetry of a name, in any case and with blanks around it. -/
def ofName (text : String) : Except GridError Transform :=
  let wanted := String.ofList (Text.lowercase (Text.trim text.toList))
  match ((all.map fun t => (t.name, t)) ++ aliases).lookup wanted with
  | some t => .ok t
  | none => .error (.unknownTransform text)

end Transform

end Cellular
