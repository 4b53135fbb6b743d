import Cellular.Grid.BoundingBox

/-!
# Bounding boxes are tight

The box of a list of coordinates holds all of them, and each of its four edges
has one of them on it.
-/

namespace Cellular

namespace BoundingBox

section Fold

variable {α : Type} {op : α → α → α}

/-- An operation that returns one of its arguments folds a list to one of its
members. -/
theorem foldl_mem (hop : ∀ a b, op a b = a ∨ op a b = b) (first : α)
    (rest : List α) : rest.foldl op first ∈ first :: rest := by
  induction rest generalizing first with
  | nil => exact List.mem_singleton_self first
  | cons n rest ih =>
    rw [List.foldl_cons]
    rcases List.mem_cons.1 (ih (op first n)) with h | h
    · rw [h]
      rcases hop first n with hfirst | hsecond
      · rw [hfirst]
        exact List.mem_cons_self
      · rw [hsecond]
        exact List.mem_cons_of_mem _ List.mem_cons_self
    · exact List.mem_cons_of_mem _ (List.mem_cons_of_mem _ h)

/-- An operation that is below both its arguments in an order folds a list to
something below all its members. -/
theorem foldl_rel (below : α → α → Prop) (hrefl : ∀ a, below a a)
    (htrans : ∀ {a b c}, below a b → below b c → below a c)
    (hleft : ∀ a b, below (op a b) a) (hright : ∀ a b, below (op a b) b)
    {first n : α} {rest : List α} (h : n ∈ first :: rest) :
    below (rest.foldl op first) n := by
  induction rest generalizing first n with
  | nil =>
    rw [List.mem_singleton] at h
    rw [h]
    exact hrefl first
  | cons m rest ih =>
    rw [List.foldl_cons]
    have hboth : below (rest.foldl op (op first m)) (op first m) :=
      ih List.mem_cons_self
    rcases List.mem_cons.1 h with rfl | h
    · exact htrans hboth (hleft n m)
    · rcases List.mem_cons.1 h with rfl | h
      · exact htrans hboth (hright first n)
      · exact ih (List.mem_cons_of_mem _ h)

end Fold

theorem leastOf_le {first n : Int} {rest : List Int} (h : n ∈ first :: rest) :
    leastOf first rest ≤ n :=
  foldl_rel (· ≤ ·) Int.le_refl Int.le_trans Int.min_le_left Int.min_le_right h

theorem leastOf_mem (first : Int) (rest : List Int) :
    leastOf first rest ∈ first :: rest :=
  foldl_mem (fun a b => by omega) first rest

theorem le_greatestOf {first n : Int} {rest : List Int} (h : n ∈ first :: rest) :
    n ≤ greatestOf first rest :=
  foldl_rel (· ≥ ·) Int.le_refl (fun hab hbc => Int.le_trans hbc hab)
    Int.le_max_left Int.le_max_right h

theorem greatestOf_mem (first : Int) (rest : List Int) :
    greatestOf first rest ∈ first :: rest :=
  foldl_mem (fun a b => by omega) first rest

/-- A box lies tight around a list of coordinates. -/
structure IsTight (box : BoundingBox) (coords : List Coord) : Prop where
  left_le : ∀ c ∈ coords, box.x ≤ c.x
  le_right : ∀ c ∈ coords, c.x ≤ box.maxX
  top_le : ∀ c ∈ coords, box.y ≤ c.y
  le_bottom : ∀ c ∈ coords, c.y ≤ box.maxY
  exists_left : ∃ c ∈ coords, c.x = box.x
  exists_right : ∃ c ∈ coords, c.x = box.maxX
  exists_top : ∃ c ∈ coords, c.y = box.y
  exists_bottom : ∃ c ∈ coords, c.y = box.maxY

/-- The least box around a point and the points of a list, however wide. -/
def around (c : Coord) (rest : List Coord) : BoundingBox :=
  let left := leastOf c.x (rest.map Coord.x)
  let top := leastOf c.y (rest.map Coord.y)
  { x := left
    y := top
    width := greatestOf c.x (rest.map Coord.x) - left + 1
    height := greatestOf c.y (rest.map Coord.y) - top + 1 }

/-- The box of a list of coordinates, if it has one. -/
theorem ofCoords_eq (c : Coord) (rest : List Coord) :
    ofCoords (c :: rest) =
      if (around c rest).width ≤ Coord.greatest ∧
          (around c rest).height ≤ Coord.greatest then
        .ok (around c rest)
      else .error .coordinateOverflow := by
  simp only [ofCoords, extent, around]
  split
  · split
    · rename_i hwidth hheight
      simp only [bind, Except.bind, pure, Except.pure, hwidth, hheight, and_self,
        if_true]
    · rename_i hheight
      simp only [bind, Except.bind, hheight, and_false, if_false]
  · rename_i hwidth
    simp only [bind, Except.bind, hwidth, false_and, if_false]

theorem isTight_around (c : Coord) (rest : List Coord) :
    (around c rest).IsTight (c :: rest) := by
  have hx : ∀ d ∈ c :: rest, d.x ∈ c.x :: rest.map Coord.x :=
    fun d hd => List.mem_map.2 ⟨d, hd, rfl⟩
  have hy : ∀ d ∈ c :: rest, d.y ∈ c.y :: rest.map Coord.y :=
    fun d hd => List.mem_map.2 ⟨d, hd, rfl⟩
  have hx' : ∀ n ∈ c.x :: rest.map Coord.x, ∃ d ∈ c :: rest, d.x = n :=
    fun n hn => List.mem_map.1 hn
  have hy' : ∀ n ∈ c.y :: rest.map Coord.y, ∃ d ∈ c :: rest, d.y = n :=
    fun n hn => List.mem_map.1 hn
  constructor
  · exact fun d hd => leastOf_le (hx d hd)
  · intro d hd
    have hle := le_greatestOf (hx d hd)
    simp only [maxX, around]
    omega
  · exact fun d hd => leastOf_le (hy d hd)
  · intro d hd
    have hle := le_greatestOf (hy d hd)
    simp only [maxY, around]
    omega
  · exact hx' _ (leastOf_mem _ _)
  · obtain ⟨d, hd, heq⟩ := hx' _ (greatestOf_mem c.x (rest.map Coord.x))
    refine ⟨d, hd, ?_⟩
    simp only [maxX, around]
    omega
  · exact hy' _ (leastOf_mem _ _)
  · obtain ⟨d, hd, heq⟩ := hy' _ (greatestOf_mem c.y (rest.map Coord.y))
    refine ⟨d, hd, ?_⟩
    simp only [maxY, around]
    omega

theorem isTight_of_ofCoords {coords : List Coord} {box : BoundingBox}
    (h : ofCoords coords = .ok box) : box.IsTight coords := by
  cases coords with
  | nil => cases h
  | cons c rest =>
    rw [ofCoords_eq] at h
    split at h
    · cases h
      exact isTight_around c rest
    · cases h

/-- A list of coordinates has a box exactly if no two of its points are further
apart than the span allows. -/
theorem around_le_greatest_iff (c : Coord) (rest : List Coord) :
    (around c rest).width ≤ Coord.greatest ∧ (around c rest).height ≤ Coord.greatest ↔
      ∀ d ∈ c :: rest, ∀ e ∈ c :: rest,
        d.x - e.x < Coord.greatest ∧ d.y - e.y < Coord.greatest := by
  have htight := isTight_around c rest
  constructor
  · intro hle d hd e he
    have hright := htight.le_right d hd
    have hbottom := htight.le_bottom d hd
    have hleft := htight.left_le e he
    have htop := htight.top_le e he
    simp only [maxX, maxY] at hright hbottom
    omega
  · intro hnear
    obtain ⟨right, hright, hx⟩ := htight.exists_right
    obtain ⟨left, hleft, hx'⟩ := htight.exists_left
    obtain ⟨bottom, hbottom, hy⟩ := htight.exists_bottom
    obtain ⟨top, htop, hy'⟩ := htight.exists_top
    have hwidth := (hnear right hright left hleft).1
    have hheight := (hnear bottom hbottom top htop).2
    simp only [maxX, maxY] at hx hy
    omega

end BoundingBox

end Cellular
