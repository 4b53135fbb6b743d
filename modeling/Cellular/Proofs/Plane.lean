import Mathlib.Data.Set.Card
import Mathlib.Order.ConditionallyCompleteLattice.Basic
import Mathlib.Data.Int.ConditionallyCompleteOrder
import Cellular.Proofs.GridAction

/-!
# Grids as planes

A plane has a state at each point, and a grid stands for a plane whose points are in the
background but for finitely many.  The operations on grids are stated here once more on
planes, point by point and without a word about how cells are kept.  Whatever grid is made
by the operations, in whatever order and from whatever grids made before, stands for the
plane that is made in the same way, and all that can be asked of a grid is told by that
plane.
-/

namespace Cellular

open Function (support)

/-- A state for each point. -/
abbrev Plane := Coord → State

namespace Plane

/-! ## Operations on planes -/

/-- The plane with the states of a list of cells, of which the last one at a point
counts. -/
def setAll (f : Plane) (cells : List (Coord × State)) : Plane := fun c =>
  match (cells.filter fun cell => cell.1 = c).getLast? with
  | some cell => cell.2
  | none => f c

/-- The plane with state 1 at the points of a set. -/
noncomputable def ones (live : Set Coord) : Plane :=
  live.indicator 1

open Classical in
/-- The plane with its states carried along by a motion, or the plane as it is if some
live point would leave the span. -/
noncomputable def moved (f : Plane) (motion back : Coord → Coord) : Plane :=
  if ∀ c ∈ support f, (motion c).Fits then fun c => f (back c) else f

/-- The first column and the first row with live points. -/
noncomputable def firstCorner (f : Plane) : Coord where
  x := sInf (Coord.x '' support f)
  y := sInf (Coord.y '' support f)

/-- The last column and the last row with live points. -/
noncomputable def lastCorner (f : Plane) : Coord where
  x := sSup (Coord.x '' support f)
  y := sSup (Coord.y '' support f)

/-- There are no more columns and rows from the first corner to the last than a box may
have. -/
def IsBoxed (f : Plane) : Prop :=
  f.lastCorner.x - f.firstCorner.x + 1 ≤ Coord.greatest ∧
    f.lastCorner.y - f.firstCorner.y + 1 ≤ Coord.greatest

open Classical in
/-- The plane with its first corner at the origin, or the plane as it is if its live
points are too far apart. -/
noncomputable def normalized (f : Plane) : Plane :=
  if f.IsBoxed then fun c => f (c + f.firstCorner) else f

theorem ones_of_mem {live : Set Coord} {c : Coord} (hc : c ∈ live) : ones live c = 1 :=
  Set.indicator_of_mem hc 1

theorem ones_of_not_mem {live : Set Coord} {c : Coord} (hc : c ∉ live) : ones live c = 0 :=
  Set.indicator_of_notMem hc 1

end Plane

namespace Grid

variable {g h k : Grid}

/-- What an operation on a grid gives, or the grid as it was if the operation is
refused. -/
def orKept (g : Grid) (result : Except GridError Grid) : Grid :=
  match result with
  | .ok h => h
  | .error _ => g

theorem mem_support_state_iff {c : Coord} : c ∈ support g.state ↔ c ∈ g.coords := by
  rw [Function.mem_support, mem_coords_iff]

/-! ## The operations on planes are those on grids -/

theorem state_insertAll_eq (g : Grid) (cells : List (Coord × State)) :
    (g.insertAll cells).state = Plane.setAll g.state cells := by
  have hlookup : ∀ (c : Coord) (entries : List (Coord × State)),
      entries.lookup c = (entries.find? fun cell => cell.1 = c).map Prod.snd := by
    intro c entries
    induction entries with
    | nil => rfl
    | cons cell rest ih =>
      rw [lookup_cons_eq_ite, List.find?_cons]
      by_cases hc : c = cell.1
      · simp [hc]
      · simp [hc, Ne.symm hc, ih]
  funext c
  rw [state_insertAll, hlookup, ← List.getLast?_filter, Plane.setAll]
  cases (cells.filter fun cell => cell.1 = c).getLast? with
  | none => rfl
  | some cell => rfl

theorem state_ofCoords_eq {coords : List Coord} {live : Set Coord}
    (hlive : ∀ c, c ∈ coords ↔ c ∈ live) : (ofCoords coords).state = Plane.ones live := by
  funext c
  rw [state_ofCoords]
  by_cases hc : c ∈ coords
  · rw [if_pos hc, Plane.ones_of_mem ((hlive c).1 hc)]
  · rw [if_neg hc, Plane.ones_of_not_mem (mt (hlive c).2 hc)]

theorem state_presence_eq (g : Grid) :
    g.presence.state = Plane.ones (support g.state) :=
  state_ofCoords_eq fun _ => mem_support_state_iff.symm

theorem state_union_eq (g h : Grid) :
    (g.union h).state = Plane.ones (support g.state ∪ support h.state) := by
  apply state_ofCoords_eq
  intro c
  rw [List.mem_append, Set.mem_union, mem_support_state_iff, mem_support_state_iff]

private theorem mem_filter_not_contains_iff {c : Coord} :
    (c ∈ g.coords.filter fun c => !h.contains c) ↔ c ∈ g.coords ∧ c ∉ h.coords := by
  rw [List.mem_filter, contains, Bool.not_eq_true', ← Bool.not_eq_true, List.contains_iff_mem]

theorem state_difference_eq (g h : Grid) :
    (g.difference h).state = Plane.ones (support g.state \ support h.state) := by
  apply state_ofCoords_eq
  intro c
  rw [mem_filter_not_contains_iff, Set.mem_sdiff, mem_support_state_iff,
    mem_support_state_iff]

theorem state_symmetricDifference_eq (g h : Grid) :
    (g.symmetricDifference h).state =
      Plane.ones (symmDiff (support g.state) (support h.state)) := by
  apply state_ofCoords_eq
  intro c
  rw [List.mem_append, mem_filter_not_contains_iff, mem_filter_not_contains_iff,
    Set.mem_symmDiff, mem_support_state_iff, mem_support_state_iff]

theorem state_remap_orKept {motion back : Coord → Coord}
    (hback : Function.LeftInverse back motion) (hmotion : Function.RightInverse back motion) :
    (g.orKept (g.remap motion)).state = Plane.moved g.state motion back := by
  by_cases hfits : ∀ c ∈ g.coords, (motion c).Fits
  · have hplane : ∀ c ∈ support g.state, (motion c).Fits :=
      fun c hc => hfits c (mem_support_state_iff.1 hc)
    obtain ⟨h, hremap⟩ : ∃ h, g.remap motion = .ok h := ⟨_, remap_eq_ok_iff.2 ⟨hfits, rfl⟩⟩
    rw [hremap, orKept, Plane.moved, if_pos hplane]
    funext c
    calc
      h.state c = h.state (motion (back c)) := by rw [hmotion c]
      _ = g.state (back c) := state_remap hremap hback.injective _
  · have hplane : ¬ ∀ c ∈ support g.state, (motion c).Fits :=
      fun hall => hfits fun c hc => hall c (mem_support_state_iff.2 hc)
    rw [remap, if_neg hfits, orKept, Plane.moved, if_neg hplane]

theorem state_shifted_orKept (g : Grid) (d : Coord) :
    (g.orKept (g.shifted d)).state = Plane.moved g.state (· + d) (· - d) :=
  state_remap_orKept (fun c => Coord.add_sub_cancel c d) fun c => Coord.sub_add_cancel c d

theorem state_transformed_orKept (g : Grid) (t : Transform) :
    (g.orKept (g.transformed t)).state = Plane.moved g.state t.apply t.inverse.apply :=
  state_remap_orKept t.apply_inverse t.apply_apply_inverse

/-- A tight box has its edges at the outermost columns and rows. -/
theorem corners_of_isTight {box : BoundingBox} (htight : box.IsTight g.coords) :
    Plane.firstCorner g.state = box.corner ∧
      Plane.lastCorner g.state = ⟨box.maxX, box.maxY⟩ := by
  have hmem : ∀ {n : ℤ} {axis : Coord → ℤ},
      n ∈ axis '' support g.state ↔ ∃ c ∈ g.coords, axis c = n := by
    intro n axis
    simp only [Set.mem_image, mem_support_state_iff]
  have hleast : ∀ {n : ℤ} {axis : Coord → ℤ}, (∃ c ∈ g.coords, axis c = n) →
      (∀ c ∈ g.coords, n ≤ axis c) → sInf (axis '' support g.state) = n := by
    intro n axis hexists hle
    refine IsLeast.csInf_eq ⟨hmem.2 hexists, fun m hm => ?_⟩
    obtain ⟨c, hc, rfl⟩ := hmem.1 hm
    exact hle c hc
  have hgreatest : ∀ {n : ℤ} {axis : Coord → ℤ}, (∃ c ∈ g.coords, axis c = n) →
      (∀ c ∈ g.coords, axis c ≤ n) → sSup (axis '' support g.state) = n := by
    intro n axis hexists hle
    refine IsGreatest.csSup_eq ⟨hmem.2 hexists, fun m hm => ?_⟩
    obtain ⟨c, hc, rfl⟩ := hmem.1 hm
    exact hle c hc
  rw [Plane.firstCorner, Plane.lastCorner, hleast htight.exists_left htight.left_le,
    hleast htight.exists_top htight.top_le, hgreatest htight.exists_right htight.le_right,
    hgreatest htight.exists_bottom htight.le_bottom]
  exact ⟨rfl, rfl⟩

theorem state_normalized_orKept (g : Grid) :
    (g.orKept g.normalized).state = Plane.normalized g.state := by
  cases hcoords : g.coords with
  | nil =>
    have hblank : ∀ c, g.state c = 0 := by
      intro c
      rw [state_eq_zero_iff, hcoords]
      exact List.not_mem_nil
    funext c
    have hplane : Plane.normalized g.state c = 0 := by
      rw [Plane.normalized]
      split <;> exact hblank _
    rw [hplane, normalized, boundingBox, hcoords]
    rfl
  | cons first rest =>
    have htight := BoundingBox.isTight_around first rest
    have hbox : g.boundingBox = _ :=
      (congrArg BoundingBox.ofCoords hcoords).trans (BoundingBox.ofCoords_eq first rest)
    have hnear := BoundingBox.around_le_greatest_iff first rest
    rw [← hcoords] at htight hnear
    obtain ⟨hfirst, hlast⟩ := corners_of_isTight htight
    have hboxed : Plane.IsBoxed g.state ↔
        (BoundingBox.around first rest).width ≤ Coord.greatest ∧
          (BoundingBox.around first rest).height ≤ Coord.greatest := by
      simp only [Plane.IsBoxed, hfirst, hlast, BoundingBox.corner, BoundingBox.maxX,
        BoundingBox.maxY]
      omega
    rw [Plane.normalized, hfirst]
    by_cases hsmall : Plane.IsBoxed g.state
    · rw [if_pos hsmall]
      rw [hboxed] at hsmall
      rw [if_pos hsmall] at hbox
      obtain ⟨h, hnormalized⟩ := exists_normalized (hnear.1 hsmall)
      rw [hnormalized, orKept]
      funext c
      exact state_normalized hnormalized hbox c
    · rw [if_neg hsmall]
      rw [hboxed] at hsmall
      rw [if_neg hsmall] at hbox
      rw [normalized, hbox, orKept]

/-! ## What is asked of a grid -/

/-- The grid stands for the plane: the plane has finitely many live points, and all
answers of the grid are told by the plane. -/
structure StandsFor (g : Grid) (f : Plane) : Prop where
  finite : (support f).Finite
  state : ∀ c, g.state c = f c
  contains : ∀ c, g.contains c = true ↔ f c ≠ 0
  population : g.population = (support f).ncard
  cells : ∀ c s, (c, s) ∈ g.cells ↔ s ≠ 0 ∧ f c = s
  order : g.cells.Pairwise fun a b => a.1.x < b.1.x ∨ a.1.x = b.1.x ∧ a.1.y < b.1.y
  firstCell : ∀ c, g.firstCell = some c ↔
    f c ≠ 0 ∧ ∀ d, f d ≠ 0 → d ≠ c → c.y < d.y ∨ c.y = d.y ∧ c.x < d.x
  noFirstCell : g.firstCell = none ↔ ∀ c, f c = 0

theorem mem_cells_iff {c : Coord} {s : State} : (c, s) ∈ g.cells ↔ s ≠ 0 ∧ g.state c = s := by
  constructor
  · intro hmem
    exact ⟨g.live _ hmem, state_of_mem_cells hmem⟩
  · rintro ⟨hlive, rfl⟩
    rw [cells_eq_map_coords]
    exact List.mem_map.2 ⟨c, mem_coords_iff.2 hlive, rfl⟩

theorem population_eq_ncard (g : Grid) : g.population = (support g.state).ncard := by
  have hsupport : support g.state = ↑g.coords.toFinset := by
    ext c
    rw [List.coe_toFinset, mem_support_state_iff, Set.mem_ofPred_eq]
  rw [hsupport, Set.ncard_coe_finset, List.toFinset_card_of_nodup g.nodup_coords, coords,
    List.length_map, population]

/-- The topmost of some points is one of them, and above all others. -/
theorem topmost_mem_and_above (first : Coord) (rest : List Coord) :
    topmost first rest ∈ first :: rest ∧
      ∀ d ∈ first :: rest, d ≠ topmost first rest → (topmost first rest).Above d := by
  have hbelow : ∀ {d}, d ∈ first :: rest →
      topmost first rest = d ∨ (topmost first rest).Above d := by
    intro d
    apply BoundingBox.foldl_rel (fun c d : Coord => c = d ∨ c.Above d)
    · exact fun c => .inl rfl
    · intro a b c hab hbc
      simp only [Coord.Above, Coord.ext_iff] at *
      omega
    · intro a b
      split
      · rename_i habove
        exact .inr habove
      · exact .inl rfl
    · intro a b
      split
      · exact .inl rfl
      · rename_i hnot
        simp only [Coord.Above, Coord.ext_iff] at *
        omega
  constructor
  · apply BoundingBox.foldl_mem
    intro a b
    split <;> simp
  · exact fun d hd hne => (hbelow hd).resolve_left (Ne.symm hne)

theorem firstCell_eq_some_iff {c : Coord} :
    g.firstCell = some c ↔ c ∈ g.coords ∧ ∀ d ∈ g.coords, d ≠ c → c.Above d := by
  rw [firstCell]
  cases g.coords with
  | nil => simp
  | cons first rest =>
    obtain ⟨hmem, habove⟩ := topmost_mem_and_above first rest
    rw [Option.some.injEq]
    constructor
    · rintro rfl
      exact ⟨hmem, habove⟩
    · rintro ⟨hc, hfirst⟩
      by_contra hne
      have hover := habove c hc (Ne.symm hne)
      have hunder := hfirst _ hmem hne
      simp only [Coord.Above] at hover hunder
      omega

theorem firstCell_eq_none_iff : g.firstCell = none ↔ ∀ c, g.state c = 0 := by
  have hnil : g.firstCell = none ↔ g.coords = [] := by
    rw [firstCell]
    cases g.coords <;> simp
  rw [hnil, List.eq_nil_iff_forall_not_mem]
  exact forall_congr' fun _ => state_eq_zero_iff.symm

/-- A grid stands for the plane of its states. -/
theorem standsFor_state (g : Grid) : g.StandsFor g.state where
  finite := by
    have hsupport : support g.state = {c | c ∈ g.coords} := by
      ext c
      exact mem_support_state_iff
    rw [hsupport]
    exact g.coords.finite_toSet
  state _ := rfl
  contains _ := contains_iff
  population := g.population_eq_ncard
  cells _ _ := mem_cells_iff
  order := g.sorted
  firstCell c := by
    rw [firstCell_eq_some_iff]
    simp only [mem_coords_iff, Coord.Above]
  noFirstCell := firstCell_eq_none_iff

/-! ## Symmetric differences -/

theorem support_state_symmetricDifference (g h : Grid) :
    support (g.symmetricDifference h).state =
      symmDiff (support g.state) (support h.state) := by
  rw [state_symmetricDifference_eq]
  ext c
  by_cases hc : c ∈ symmDiff (support g.state) (support h.state)
  · simp [Plane.ones_of_mem hc, hc]
  · simp [Plane.ones_of_not_mem hc, hc]

theorem symmetricDifference_comm (g h : Grid) :
    g.symmetricDifference h = h.symmetricDifference g := by
  apply ext_state
  intro c
  rw [state_symmetricDifference_eq, state_symmetricDifference_eq, symmDiff_comm]

theorem symmetricDifference_assoc (g h k : Grid) :
    (g.symmetricDifference h).symmetricDifference k =
      g.symmetricDifference (h.symmetricDifference k) := by
  apply ext_state
  intro c
  calc
    ((g.symmetricDifference h).symmetricDifference k).state c =
        Plane.ones (symmDiff (support (g.symmetricDifference h).state) (support k.state)) c := by
      rw [state_symmetricDifference_eq]
    _ = Plane.ones (symmDiff (support g.state)
          (support (h.symmetricDifference k).state)) c := by
      rw [support_state_symmetricDifference, support_state_symmetricDifference, symmDiff_assoc]
    _ = (g.symmetricDifference (h.symmetricDifference k)).state c := by
      rw [state_symmetricDifference_eq g]

theorem symmetricDifference_self (g : Grid) : g.symmetricDifference g = empty := by
  apply ext_state
  intro c
  rw [state_symmetricDifference_eq, symmDiff_self, state_empty]
  exact Plane.ones_of_not_mem (Set.notMem_empty c)

theorem symmetricDifference_empty (g : Grid) : g.symmetricDifference empty = g.presence := by
  have hempty : support empty.state = ⊥ := Function.support_eq_empty_iff.2 rfl
  apply ext_state
  intro c
  rw [state_symmetricDifference_eq, state_presence_eq, hempty, symmDiff_bot]

end Grid

/-! ## Grids made by the operations -/

/-- How a grid is made: from nothing, from a list of cells or of points, or by an
operation on grids that were made before. -/
inductive Construction where
  | empty
  | ofCells (cells : List (Coord × State))
  | ofCoords (coords : List Coord)
  | insert (base : Construction) (c : Coord) (s : State)
  | erase (base : Construction) (c : Coord)
  | insertAll (base : Construction) (cells : List (Coord × State))
  | presence (base : Construction)
  | union (left right : Construction)
  | difference (left right : Construction)
  | symmetricDifference (left right : Construction)
  | shifted (base : Construction) (d : Coord)
  | transformed (base : Construction) (t : Transform)
  | normalized (base : Construction)

namespace Construction

/-- The grid that is made.  An operation that is refused leaves the grid as it was. -/
def grid : Construction → Grid
  | empty => .empty
  | ofCells cells => .ofCells cells
  | ofCoords coords => .ofCoords coords
  | insert base c s => base.grid.insert c s
  | erase base c => base.grid.erase c
  | insertAll base cells => base.grid.insertAll cells
  | presence base => base.grid.presence
  | union left right => left.grid.union right.grid
  | difference left right => left.grid.difference right.grid
  | symmetricDifference left right => left.grid.symmetricDifference right.grid
  | shifted base d => base.grid.orKept (base.grid.shifted d)
  | transformed base t => base.grid.orKept (base.grid.transformed t)
  | normalized base => base.grid.orKept base.grid.normalized

/-- The plane that is made in the same way, point by point. -/
noncomputable def plane : Construction → Plane
  | empty => 0
  | ofCells cells => Plane.setAll 0 cells
  | ofCoords coords => Plane.ones {c | c ∈ coords}
  | insert base c s => Function.update base.plane c s
  | erase base c => Function.update base.plane c 0
  | insertAll base cells => base.plane.setAll cells
  | presence base => Plane.ones (support base.plane)
  | union left right => Plane.ones (support left.plane ∪ support right.plane)
  | difference left right => Plane.ones (support left.plane \ support right.plane)
  | symmetricDifference left right =>
    Plane.ones (symmDiff (support left.plane) (support right.plane))
  | shifted base d => base.plane.moved (· + d) (· - d)
  | transformed base t => base.plane.moved t.apply t.inverse.apply
  | normalized base => base.plane.normalized

/-- The states of a grid that was made are those of the plane, whatever was done last. -/
theorem state_grid (b : Construction) : b.grid.state = b.plane := by
  induction b with
  | empty => rfl
  | ofCells cells => exact Grid.state_insertAll_eq .empty cells
  | ofCoords coords => exact Grid.state_ofCoords_eq fun _ => Iff.rfl
  | insert base c s ih =>
    funext d
    rw [grid, plane, Grid.state_insert, Function.update_apply, ih]
  | erase base c ih =>
    funext d
    rw [grid, plane, Grid.state_erase, Function.update_apply, ih]
  | insertAll base cells ih => rw [grid, plane, Grid.state_insertAll_eq, ih]
  | presence base ih => rw [grid, plane, Grid.state_presence_eq, ih]
  | union left right ihl ihr => rw [grid, plane, Grid.state_union_eq, ihl, ihr]
  | difference left right ihl ihr => rw [grid, plane, Grid.state_difference_eq, ihl, ihr]
  | symmetricDifference left right ihl ihr =>
    rw [grid, plane, Grid.state_symmetricDifference_eq, ihl, ihr]
  | shifted base d ih => rw [grid, plane, Grid.state_shifted_orKept, ih]
  | transformed base t ih => rw [grid, plane, Grid.state_transformed_orKept, ih]
  | normalized base ih => rw [grid, plane, Grid.state_normalized_orKept, ih]

/-- **A grid is a plane with finitely many live points.**  Every grid that is made by the
operations stands for the plane that is made by them point by point; a motion that is
refused leaves the grid as it was; and symmetric differences form a commutative group in
which each grid is its own opposite, up to the states of its cells. -/
theorem made_grid_stands_for_plane :
    (∀ b : Construction, b.grid.StandsFor b.plane) ∧
    (∀ (b : Construction) (e : GridError),
      (∀ d, b.grid.shifted d = .error e → (b.shifted d).grid = b.grid) ∧
      (∀ t, b.grid.transformed t = .error e → (b.transformed t).grid = b.grid) ∧
      (b.grid.normalized = .error e → b.normalized.grid = b.grid)) ∧
    ∀ g h k : Grid,
      g.symmetricDifference h = h.symmetricDifference g ∧
      (g.symmetricDifference h).symmetricDifference k =
        g.symmetricDifference (h.symmetricDifference k) ∧
      g.symmetricDifference g = .empty ∧
      (g.symmetricDifference h).symmetricDifference h = g.presence := by
  refine ⟨fun b => ?_, fun b e => ⟨fun d he => ?_, fun t he => ?_, fun he => ?_⟩,
    fun g h k => ⟨?_, ?_, ?_, ?_⟩⟩
  · rw [← state_grid]
    exact b.grid.standsFor_state
  · rw [grid, he, Grid.orKept]
  · rw [grid, he, Grid.orKept]
  · rw [grid, he, Grid.orKept]
  · exact g.symmetricDifference_comm h
  · exact g.symmetricDifference_assoc h k
  · exact g.symmetricDifference_self
  · rw [Grid.symmetricDifference_assoc, Grid.symmetricDifference_self,
      Grid.symmetricDifference_empty]

end Construction

end Cellular
