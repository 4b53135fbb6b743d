/-!
# Coordinates

Cells sit on the integer points of the plane, with `y` growing downwards.  The
coordinates a grid may use are those of a signed 64-bit word; a motion that
would carry a cell out of that span is refused by the operation that asks for
it, so that the motions themselves are maps of the whole plane.
-/

namespace Cellular

/-- The state of a cell.  State 0 is the background. -/
abbrev State := Nat

/-- A point of the plane. -/
structure Coord where
  x : Int
  y : Int
deriving DecidableEq, Inhabited

namespace Coord

/-- The least coordinate of the span, which is `-2 ^ 63`. -/
def least : Int := -9223372036854775808

/-- The greatest coordinate of the span, which is `2 ^ 63 - 1`, and the greatest
number of columns or rows a box may have. -/
def greatest : Int := 9223372036854775807

/-- The point lies within the span on both axes. -/
def Fits (c : Coord) : Prop :=
  (least ≤ c.x ∧ c.x ≤ greatest) ∧ least ≤ c.y ∧ c.y ≤ greatest

instance (c : Coord) : Decidable c.Fits :=
  inferInstanceAs (Decidable (_ ∧ _))

/-- The sum of two points, as displacements. -/
def add (c d : Coord) : Coord where
  x := c.x + d.x
  y := c.y + d.y

/-- The displacement that takes `d` to `c`. -/
def sub (c d : Coord) : Coord where
  x := c.x - d.x
  y := c.y - d.y

instance : Add Coord := ⟨add⟩
instance : Sub Coord := ⟨sub⟩

/-- Cells are listed column by column, each column downwards. -/
def Before (c d : Coord) : Prop :=
  c.x < d.x ∨ c.x = d.x ∧ c.y < d.y

instance (c d : Coord) : Decidable (c.Before d) :=
  inferInstanceAs (Decidable (_ ∨ _))

/-- The reading order of a picture: row by row, each row from the left. -/
def Above (c d : Coord) : Prop :=
  c.y < d.y ∨ c.y = d.y ∧ c.x < d.x

instance (c d : Coord) : Decidable (c.Above d) :=
  inferInstanceAs (Decidable (_ ∨ _))

theorem ext_iff {c d : Coord} : c = d ↔ c.x = d.x ∧ c.y = d.y := by
  cases c; cases d; simp

@[simp]
theorem add_x (c d : Coord) : (c + d).x = c.x + d.x := rfl

@[simp]
theorem add_y (c d : Coord) : (c + d).y = c.y + d.y := rfl

@[simp]
theorem sub_x (c d : Coord) : (c - d).x = c.x - d.x := rfl

@[simp]
theorem sub_y (c d : Coord) : (c - d).y = c.y - d.y := rfl

protected theorem add_assoc (b c d : Coord) : b + c + d = b + (c + d) :=
  ext_iff.2 ⟨Int.add_assoc b.x c.x d.x, Int.add_assoc b.y c.y d.y⟩

protected theorem add_zero (c : Coord) : c + ⟨0, 0⟩ = c :=
  ext_iff.2 ⟨Int.add_zero c.x, Int.add_zero c.y⟩

protected theorem add_sub_cancel (c d : Coord) : c + d - d = c :=
  ext_iff.2 ⟨Int.add_sub_cancel c.x d.x, Int.add_sub_cancel c.y d.y⟩

protected theorem sub_add_cancel (c d : Coord) : c - d + d = c :=
  ext_iff.2 ⟨Int.sub_add_cancel c.x d.x, Int.sub_add_cancel c.y d.y⟩

/-- Adding the opposite of a displacement undoes it. -/
protected theorem add_zero_sub (c d : Coord) : c + (⟨0, 0⟩ - d) = c - d := by
  simp only [ext_iff, add_x, add_y, sub_x, sub_y]
  omega

theorem Before.trans {a b c : Coord} (hab : a.Before b) (hbc : b.Before c) :
    a.Before c := by
  simp only [Before] at *
  omega

theorem Before.irrefl (c : Coord) : ¬ c.Before c := by
  simp only [Before]
  omega

theorem before_of_not_before {c d : Coord} (h : ¬ c.Before d) (hne : c ≠ d) :
    d.Before c := by
  simp only [Before, ne_eq, ext_iff] at *
  omega

end Coord

end Cellular
