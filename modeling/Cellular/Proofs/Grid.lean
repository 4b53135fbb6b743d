import Mathlib.Data.List.Sort
import Cellular.Grid.Lemmas
import Cellular.Proofs.BoundingBox

/-!
# Grids of lists of cells, and motions of grids

The state at a point of a grid that was made from a list of cells, moved, or
brought to the origin.
-/

namespace Cellular

namespace Grid

theorem pairwise_coords (g : Grid) : g.coords.Pairwise Coord.Before := by
  rw [coords, List.pairwise_map]
  exact g.sorted

theorem state_eq_zero_iff {g : Grid} {c : Coord} : g.state c = 0 ↔ c ∉ g.coords := by
  rw [mem_coords_iff, Decidable.not_not]

theorem nodup_coords (g : Grid) : g.coords.Nodup := by
  apply g.pairwise_coords.imp
  intro c d hbefore heq
  exact Coord.Before.irrefl d (heq ▸ hbefore)

theorem state_of_mem_cells {g : Grid} {cell : Coord × State}
    (hmem : cell ∈ g.cells) : g.state cell.1 = cell.2 := by
  rw [state, lookup_eq_some_of_mem g.nodup_coords hmem]
  rfl

/-- The cells of a grid are its live points with their states. -/
theorem cells_eq_map_coords (g : Grid) :
    g.cells = g.coords.map fun c => (c, g.state c) := by
  rw [coords, List.map_map]
  conv_lhs => rw [← List.map_id g.cells]
  apply List.map_congr_left
  intro cell hcell
  exact Prod.ext rfl (state_of_mem_cells hcell).symm

/-- The last cell of the list that sets a point decides its state. -/
theorem state_insertAll (g : Grid) (cells : List (Coord × State)) (c : Coord) :
    (g.insertAll cells).state c = (cells.reverse.lookup c).getD (g.state c) := by
  induction cells generalizing g with
  | nil => rfl
  | cons cell rest ih =>
    have hstep : g.insertAll (cell :: rest) =
        (g.insert cell.1 cell.2).insertAll rest := rfl
    rw [hstep, ih, List.reverse_cons, List.lookup_append, state_insert,
      lookup_cons_eq_ite]
    cases rest.reverse.lookup c with
    | none => by_cases hc : c = cell.1 <;> simp [hc]
    | some s => rfl

theorem state_ofCells (cells : List (Coord × State)) (c : Coord) :
    (ofCells cells).state c = (cells.reverse.lookup c).getD 0 := by
  rw [ofCells, state_insertAll, state_empty]

/-- A point of a list of live cells is live. -/
theorem mem_coords_ofCells_iff {cells : List (Coord × State)} {c : Coord}
    (hlive : ∀ cell ∈ cells, cell.2 ≠ 0) :
    c ∈ (ofCells cells).coords ↔ c ∈ cells.map Prod.fst := by
  have hkeys : c ∈ cells.reverse.map Prod.fst ↔ c ∈ cells.map Prod.fst := by
    rw [List.map_reverse, List.mem_reverse]
  rw [mem_coords_iff, state_ofCells, ← hkeys]
  cases h : cells.reverse.lookup c with
  | none =>
    have hnot := lookup_eq_none_iff_not_mem_keys.1 h
    simp only [Option.getD_none, ne_eq, not_true_eq_false, hnot]
  | some s =>
    have hmem := mem_of_lookup_eq_some h
    have hs : s ≠ 0 := hlive _ (List.mem_reverse.1 hmem)
    have hkey : c ∈ cells.reverse.map Prod.fst :=
      List.mem_map.2 ⟨_, hmem, rfl⟩
    simp only [Option.getD_some, ne_eq, hs, not_false_iff, hkey]

private theorem lookup_map_const (coords : List Coord) (s : State) (c : Coord) :
    (coords.map fun d => (d, s)).lookup c = if c ∈ coords then some s else none := by
  induction coords with
  | nil => rfl
  | cons d rest ih =>
    rw [List.map_cons, lookup_cons_eq_ite, ih]
    by_cases hc : c = d <;> simp [hc]

@[simp]
theorem state_ofCoords (coords : List Coord) (c : Coord) :
    (ofCoords coords).state c = if c ∈ coords then 1 else 0 := by
  rw [ofCoords, state_ofCells, ← List.map_reverse, lookup_map_const]
  by_cases hc : c ∈ coords <;> simp [hc]

/-- The order and the repetitions of a list of points do not matter. -/
theorem ofCoords_congr {left right : List Coord}
    (h : ∀ c, c ∈ left ↔ c ∈ right) : ofCoords left = ofCoords right := by
  apply ext_state
  intro c
  simp only [state_ofCoords, h c]

theorem mem_coords_ofCoords_iff {coords : List Coord} {c : Coord} :
    c ∈ (ofCoords coords).coords ↔ c ∈ coords := by
  rw [mem_coords_iff, state_ofCoords]
  by_cases hc : c ∈ coords <;> simp [hc]

private theorem irrefl_before : Std.Irrefl Coord.Before := ⟨Coord.Before.irrefl⟩

private theorem antisymm_before : Std.Antisymm Coord.Before := by
  constructor
  intro c d hcd hdc
  exact absurd (hcd.trans hdc) (Coord.Before.irrefl c)

/-- Grids with the same live points list them alike. -/
theorem coords_eq_of_mem_iff {g h : Grid}
    (hmem : ∀ c, c ∈ g.coords ↔ c ∈ h.coords) : g.coords = h.coords := by
  have := irrefl_before
  have := antisymm_before
  exact g.pairwise_coords.eq_of_mem_iff h.pairwise_coords hmem

@[simp]
theorem state_presence (g : Grid) (c : Coord) :
    g.presence.state c = if g.state c = 0 then 0 else 1 := by
  rw [presence, state_ofCoords]
  by_cases hc : g.state c = 0 <;> simp [mem_coords_iff, hc]

theorem coords_presence (g : Grid) : g.presence.coords = g.coords :=
  coords_eq_of_mem_iff fun _ => mem_coords_ofCoords_iff

theorem boundingBox_presence (g : Grid) :
    g.presence.boundingBox = g.boundingBox := by
  rw [boundingBox, boundingBox, coords_presence]

section Remap

variable {g h : Grid} {f : Coord → Coord}

theorem remap_eq_ok_iff :
    g.remap f = .ok h ↔
      (∀ c ∈ g.coords, (f c).Fits) ∧
        h = ofCells (g.cells.map fun cell => (f cell.1, cell.2)) := by
  rw [remap]
  split
  · rename_i hfits
    rw [Except.ok.injEq, eq_comm]
    exact (and_iff_right hfits).symm
  · rename_i hfits
    simp [hfits]

/-- The live points of a moved grid are the moved live points. -/
theorem mem_coords_remap_iff (hremap : g.remap f = .ok h) {d : Coord} :
    d ∈ h.coords ↔ ∃ c ∈ g.coords, f c = d := by
  have hlive : ∀ cell ∈ g.cells.map fun cell => (f cell.1, cell.2),
      cell.2 ≠ 0 := by
    intro cell hcell
    obtain ⟨source, hsource, rfl⟩ := List.mem_map.1 hcell
    exact g.live source hsource
  rw [(remap_eq_ok_iff.1 hremap).2, mem_coords_ofCells_iff hlive, coords]
  simp only [List.map_map, List.mem_map, Function.comp_apply]
  constructor
  · rintro ⟨cell, hcell, rfl⟩
    exact ⟨cell.1, ⟨cell, hcell, rfl⟩, rfl⟩
  · rintro ⟨_, ⟨cell, hcell, rfl⟩, rfl⟩
    exact ⟨cell, hcell, rfl⟩

/-- A motion that keeps points apart takes their states along. -/
theorem state_remap (hremap : g.remap f = .ok h) (hf : Function.Injective f)
    (c : Coord) : h.state (f c) = g.state c := by
  by_cases hc : c ∈ g.coords
  · let moved := (g.cells.map fun cell => (f cell.1, cell.2)).reverse
    have hkeys : moved.map Prod.fst = (g.coords.map f).reverse := by
      simp only [moved, coords, List.map_reverse, List.map_map]
      rfl
    have hnodup : (moved.map Prod.fst).Nodup := by
      rw [hkeys, List.nodup_reverse]
      exact g.nodup_coords.map hf
    have hmem : (f c, g.state c) ∈ moved := by
      rw [List.mem_reverse, List.mem_map]
      obtain ⟨cell, hcell, rfl⟩ := List.mem_map.1 hc
      exact ⟨cell, hcell, by rw [state_of_mem_cells hcell]⟩
    rw [(remap_eq_ok_iff.1 hremap).2, state_ofCells,
      lookup_eq_some_of_mem hnodup hmem]
    rfl
  · have hmoved : f c ∉ h.coords := by
      rw [mem_coords_remap_iff hremap]
      rintro ⟨d, hd, heq⟩
      exact hc (hf heq ▸ hd)
    rw [state_eq_zero_iff.2 hc, state_eq_zero_iff.2 hmoved]

/-- Moving a grid and forgetting its states can be done in either order. -/
theorem presence_remap (hremap : g.remap f = .ok h) :
    g.presence.remap f = .ok h.presence := by
  have hok : g.presence.remap f = .ok (ofCoords (g.coords.map f)) := by
    have hcells : g.presence.cells = g.coords.map fun c => (c, 1) := by
      rw [cells_eq_map_coords, coords_presence]
      apply List.map_congr_left
      intro c hc
      rw [state_presence, if_neg (mem_coords_iff.1 hc)]
    rw [remap_eq_ok_iff, coords_presence, hcells, ofCoords, List.map_map,
      List.map_map]
    exact ⟨(remap_eq_ok_iff.1 hremap).1, rfl⟩
  rw [hok, presence, Except.ok.injEq]
  apply ofCoords_congr
  intro d
  rw [mem_coords_remap_iff hremap, List.mem_map]

end Remap

section Normalized

variable {g h : Grid}

theorem coords_eq_nil_of_emptyPattern (hbox : g.boundingBox = .error .emptyPattern) :
    g.coords = [] := by
  rw [boundingBox] at hbox
  cases hcoords : g.coords with
  | nil => rfl
  | cons c rest =>
    rw [hcoords, BoundingBox.ofCoords_eq] at hbox
    split at hbox <;> cases hbox

/-- Bringing a grid to the origin either moves its box there or has nothing to
move. -/
theorem normalized_eq_ok (hnormalized : g.normalized = .ok h) :
    (g.coords = [] ∧ h = empty) ∨
      ∃ box, g.boundingBox = .ok box ∧ g.remap (· - box.corner) = .ok h := by
  rw [normalized] at hnormalized
  split at hnormalized
  · rename_i box hbox
    exact Or.inr ⟨box, hbox, hnormalized⟩
  · rename_i hbox
    cases hnormalized
    exact Or.inl ⟨coords_eq_nil_of_emptyPattern hbox, rfl⟩
  · cases hnormalized

/-- Bringing a grid to the origin and forgetting its states can be done in
either order. -/
theorem presence_normalized (hnormalized : g.normalized = .ok h) :
    g.presence.normalized = .ok h.presence := by
  rw [normalized, boundingBox_presence]
  rcases normalized_eq_ok hnormalized with ⟨hnil, rfl⟩ | ⟨box, hbox, hremap⟩
  · rw [boundingBox, hnil]
    rfl
  · rw [hbox]
    exact presence_remap hremap

theorem injective_sub (corner : Coord) :
    Function.Injective fun c : Coord => c - corner := by
  intro c d heq
  rw [← Coord.sub_add_cancel c corner, ← Coord.sub_add_cancel d corner]
  exact congrArg (· + corner) heq

theorem state_normalized {box : BoundingBox} (hnormalized : g.normalized = .ok h)
    (hbox : g.boundingBox = .ok box) (d : Coord) :
    h.state d = g.state (d + box.corner) := by
  have hremap : g.remap (· - box.corner) = .ok h := by
    rw [normalized, hbox] at hnormalized
    exact hnormalized
  have hstate := state_remap hremap (injective_sub box.corner) (d + box.corner)
  rwa [Coord.add_sub_cancel] at hstate

theorem mem_coords_normalized_iff {box : BoundingBox}
    (hnormalized : g.normalized = .ok h) (hbox : g.boundingBox = .ok box)
    {d : Coord} : d ∈ h.coords ↔ d + box.corner ∈ g.coords := by
  rw [mem_coords_iff, mem_coords_iff, state_normalized hnormalized hbox]

/-- A grid lies at the origin: its points are on no side of the axes but the
right one and the lower one, and some touch them. -/
structure AtOrigin (g : Grid) : Prop where
  nonneg : ∀ c ∈ g.coords, 0 ≤ c.x ∧ 0 ≤ c.y
  exists_left : g.coords ≠ [] → ∃ c ∈ g.coords, c.x = 0
  exists_top : g.coords ≠ [] → ∃ c ∈ g.coords, c.y = 0

theorem atOrigin_of_normalized (hnormalized : g.normalized = .ok h) :
    h.AtOrigin := by
  rcases normalized_eq_ok hnormalized with ⟨-, rfl⟩ | ⟨box, hbox, -⟩
  · constructor
    · intro c hc
      cases hc
    · exact fun hne => absurd rfl hne
    · exact fun hne => absurd rfl hne
  · have htight := BoundingBox.isTight_of_ofCoords hbox
    have hmem : ∀ d, d ∈ h.coords ↔ d + box.corner ∈ g.coords :=
      fun d => mem_coords_normalized_iff hnormalized hbox
    have hback : ∀ c ∈ g.coords, c - box.corner ∈ h.coords := by
      intro c hc
      rwa [hmem, Coord.sub_add_cancel]
    constructor
    · intro d hd
      have hleft := htight.left_le _ ((hmem d).1 hd)
      have htop := htight.top_le _ ((hmem d).1 hd)
      simp only [Coord.add_x, Coord.add_y, BoundingBox.corner] at hleft htop
      omega
    · intro _
      obtain ⟨c, hc, hx⟩ := htight.exists_left
      refine ⟨_, hback c hc, ?_⟩
      simp only [Coord.sub_x, BoundingBox.corner]
      omega
    · intro _
      obtain ⟨c, hc, hy⟩ := htight.exists_top
      refine ⟨_, hback c hc, ?_⟩
      simp only [Coord.sub_y, BoundingBox.corner]
      omega

/-- The box of a grid that was brought to the origin starts there. -/
theorem corner_of_normalized {box : BoundingBox} (hnormalized : g.normalized = .ok h)
    (hbox : h.boundingBox = .ok box) : box.x = 0 ∧ box.y = 0 := by
  have horigin := atOrigin_of_normalized hnormalized
  have htight := BoundingBox.isTight_of_ofCoords hbox
  obtain ⟨left, hleft, hx⟩ := htight.exists_left
  obtain ⟨top, htop, hy⟩ := htight.exists_top
  have hne : h.coords ≠ [] := List.ne_nil_of_mem hleft
  obtain ⟨c, hc, hcx⟩ := horigin.exists_left hne
  obtain ⟨d, hd, hdy⟩ := horigin.exists_top hne
  have hxle := htight.left_le c hc
  have hyle := htight.top_le d hd
  have hxnonneg := (horigin.nonneg left hleft).1
  have hynonneg := (horigin.nonneg top htop).2
  omega

end Normalized

end Grid

end Cellular
