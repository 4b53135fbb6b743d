/-!
# Looking up keys

Grids and maps are kept as lists of keyed entries, of which the first one with
a key counts.  These are the facts about looking a key up in such a list that
their operations need.
-/

namespace Cellular

variable {κ α : Type} [DecidableEq κ]

theorem lookup_cons_eq_ite (key : κ) (entry : κ × α) (rest : List (κ × α)) :
    (entry :: rest).lookup key =
      if key = entry.1 then some entry.2 else rest.lookup key := by
  rw [List.lookup_cons]
  by_cases h : key = entry.1
  · simp [h]
  · have hbeq : (key == entry.1) = false := beq_eq_false_iff_ne.2 h
    simp [h, hbeq]

theorem lookup_eq_none_iff_not_mem_keys {key : κ} {entries : List (κ × α)} :
    entries.lookup key = none ↔ key ∉ entries.map Prod.fst := by
  induction entries with
  | nil => simp
  | cons entry rest ih =>
    rw [lookup_cons_eq_ite, List.map_cons, List.mem_cons, not_or]
    by_cases h : key = entry.1
    · simp [h]
    · simp only [h, if_false, ih, not_false_iff, true_and]

theorem mem_of_lookup_eq_some {key : κ} {value : α} {entries : List (κ × α)}
    (h : entries.lookup key = some value) : (key, value) ∈ entries := by
  induction entries with
  | nil => simp at h
  | cons entry rest ih =>
    rw [lookup_cons_eq_ite] at h
    by_cases hkey : key = entry.1
    · rw [if_pos hkey, Option.some.injEq] at h
      have : (key, value) = entry := by rw [hkey, ← h]
      exact this ▸ List.mem_cons_self
    · rw [if_neg hkey] at h
      exact List.mem_cons_of_mem _ (ih h)

/-- With distinct keys, every entry is found under its key. -/
theorem lookup_eq_some_of_mem {key : κ} {value : α} {entries : List (κ × α)}
    (hnodup : (entries.map Prod.fst).Nodup) (hmem : (key, value) ∈ entries) :
    entries.lookup key = some value := by
  induction entries with
  | nil => cases hmem
  | cons entry rest ih =>
    rw [List.map_cons, List.nodup_cons] at hnodup
    rw [lookup_cons_eq_ite]
    rcases List.mem_cons.1 hmem with rfl | hrest
    · rw [if_pos rfl]
    · have hne : key ≠ entry.1 := by
        intro heq
        exact hnodup.1 (heq ▸ List.mem_map.2 ⟨_, hrest, rfl⟩)
      rw [if_neg hne, ih hnodup.2 hrest]

theorem lookup_filter_ne (key erased : κ) (entries : List (κ × α)) :
    (entries.filter fun entry => entry.1 ≠ erased).lookup key =
      if key = erased then none else entries.lookup key := by
  induction entries with
  | nil => simp
  | cons entry rest ih =>
    by_cases herased : entry.1 = erased
    · have hdrop : ¬ decide (entry.1 ≠ erased) = true := by simp [herased]
      rw [List.filter_cons, if_neg hdrop, ih]
      by_cases hkey : key = erased
      · rw [if_pos hkey, if_pos hkey]
      · have hne : key ≠ entry.1 := fun h => hkey (h.trans herased)
        rw [if_neg hkey, if_neg hkey, lookup_cons_eq_ite, if_neg hne]
    · have hkeep : decide (entry.1 ≠ erased) = true := by simp [herased]
      rw [List.filter_cons, if_pos hkeep, lookup_cons_eq_ite, lookup_cons_eq_ite,
        ih]
      by_cases hkey : key = entry.1
      · have hne : key ≠ erased := fun h => herased (hkey ▸ h)
        rw [if_pos hkey, if_neg hne, if_pos hkey]
      · rw [if_neg hkey, if_neg hkey]

end Cellular
