import Cellular.Grid.Basic
import Cellular.Lookup

/-!
# The states of a grid

What each operation on a grid does to the function that gives the state at a
point.  Grids with the same states at all points are equal, so that function is
all there is to a grid.
-/

namespace Cellular

namespace Grid

theorem lookup_insertCell {c d : Coord} {s : State}
    {cells : List (Coord × State)} :
    (insertCell c s cells).lookup d =
      if d = c then some s else cells.lookup d := by
  induction cells with
  | nil => rw [insertCell, lookup_cons_eq_ite]
  | cons first rest ih =>
    rw [insertCell]
    split
    · rw [lookup_cons_eq_ite]
    · split
      · rename_i heq
        by_cases hd : d = c
        · rw [lookup_cons_eq_ite, if_pos hd, if_pos hd]
        · have hfirst : d ≠ first.1 := heq ▸ hd
          rw [lookup_cons_eq_ite, if_neg hd, if_neg hd, lookup_cons_eq_ite,
            if_neg hfirst]
      · rename_i hne
        by_cases hfirst : d = first.1
        · have hd : d ≠ c := fun heq => hne (heq ▸ hfirst)
          rw [lookup_cons_eq_ite, if_pos hfirst, if_neg hd, lookup_cons_eq_ite,
            if_pos hfirst]
        · rw [lookup_cons_eq_ite, if_neg hfirst, ih, lookup_cons_eq_ite,
            if_neg hfirst]

@[simp]
theorem state_empty (c : Coord) : empty.state c = 0 := rfl

@[simp]
theorem state_erase (g : Grid) (c d : Coord) :
    (g.erase c).state d = if d = c then 0 else g.state d := by
  rw [state, erase, lookup_filter_ne]
  split <;> rfl

@[simp]
theorem state_insert (g : Grid) (c d : Coord) (s : State) :
    (g.insert c s).state d = if d = c then s else g.state d := by
  by_cases hs : s = 0
  · rw [insert, dif_pos hs, state_erase, hs]
  · rw [state, insert, dif_neg hs, lookup_insertCell]
    split <;> rfl

theorem mem_coords_iff {g : Grid} {c : Coord} :
    c ∈ g.coords ↔ g.state c ≠ 0 := by
  constructor
  · intro hmem
    rw [state]
    cases h : g.cells.lookup c with
    | none => exact absurd hmem (lookup_eq_none_iff_not_mem_keys.1 h)
    | some s => exact g.live _ (mem_of_lookup_eq_some h)
  · intro hstate
    refine Decidable.byContradiction fun hmem => hstate ?_
    rw [state, lookup_eq_none_iff_not_mem_keys.2 hmem]
    rfl

theorem contains_iff {g : Grid} {c : Coord} :
    g.contains c = true ↔ g.state c ≠ 0 := by
  rw [contains, List.contains_iff_mem, mem_coords_iff]

private theorem cells_eq_of_lookup_eq {as bs : List (Coord × State)}
    (has : as.Pairwise fun a b => a.1.Before b.1)
    (hbs : bs.Pairwise fun a b => a.1.Before b.1)
    (h : ∀ c, as.lookup c = bs.lookup c) : as = bs := by
  induction as generalizing bs with
  | nil =>
    cases bs with
    | nil => rfl
    | cons b bs =>
      have hb := h b.1
      rw [lookup_cons_eq_ite, if_pos rfl] at hb
      simp at hb
  | cons a as ih =>
    cases bs with
    | nil =>
      have ha := h a.1
      rw [lookup_cons_eq_ite, if_pos rfl] at ha
      simp at ha
    | cons b bs =>
      rw [List.pairwise_cons] at has hbs
      have hkey : a.1 = b.1 := by
        refine Decidable.byContradiction fun hne => ?_
        have ha := h a.1
        have hb := h b.1
        rw [lookup_cons_eq_ite, if_pos rfl, lookup_cons_eq_ite, if_neg hne] at ha
        rw [lookup_cons_eq_ite, if_neg (Ne.symm hne), lookup_cons_eq_ite,
          if_pos rfl] at hb
        have hba := hbs.1 _ (mem_of_lookup_eq_some ha.symm)
        have hab := has.1 _ (mem_of_lookup_eq_some hb)
        exact Coord.Before.irrefl _ (hab.trans hba)
      have hvalue : a.2 = b.2 := by
        have ha := h a.1
        rwa [lookup_cons_eq_ite, if_pos rfl, lookup_cons_eq_ite, if_pos hkey,
          Option.some.injEq] at ha
      have hrest : ∀ c, as.lookup c = bs.lookup c := by
        intro c
        have hc := h c
        rw [lookup_cons_eq_ite, lookup_cons_eq_ite, ← hkey] at hc
        by_cases hca : c = a.1
        · have hnone : ∀ {l : List (Coord × State)},
              (∀ cell ∈ l, a.1.Before cell.1) → l.lookup c = none := by
            intro l hl
            rw [lookup_eq_none_iff_not_mem_keys, hca, List.mem_map]
            rintro ⟨cell, hcell, heq⟩
            exact Coord.Before.irrefl _ (heq ▸ hl cell hcell)
          rw [hnone has.1, hnone fun cell hcell => hkey ▸ hbs.1 cell hcell]
        · rwa [if_neg hca, if_neg hca] at hc
      rw [Prod.ext hkey hvalue, ih has.2 hbs.2 hrest]

/-- A grid is determined by its states. -/
theorem ext_state {g h : Grid} (hstate : ∀ c, g.state c = h.state c) :
    g = h := by
  have hcells : g.cells = h.cells := by
    refine cells_eq_of_lookup_eq g.sorted h.sorted fun c => ?_
    have hc := hstate c
    rw [state, state] at hc
    cases hg : g.cells.lookup c with
    | none =>
      cases hh : h.cells.lookup c with
      | none => rfl
      | some s =>
        have hlive := h.live _ (mem_of_lookup_eq_some hh)
        rw [hg, hh] at hc
        exact absurd hc.symm hlive
    | some s =>
      cases hh : h.cells.lookup c with
      | none =>
        have hlive := g.live _ (mem_of_lookup_eq_some hg)
        rw [hg, hh] at hc
        exact absurd hc hlive
      | some t =>
        rw [hg, hh] at hc
        exact congrArg some hc
  cases g
  cases h
  cases hcells
  rfl

end Grid

end Cellular
