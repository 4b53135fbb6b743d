import Cellular.Lookup

/-!
# Maps in insertion order

A finite map that lists its entries in the order in which their keys were
first inserted.  Replacing the value of a key keeps its place; erasing a key
closes the gap.  Variables, free parameters and cached tables are kept this
way, because their order can be seen from outside.
-/

namespace Cellular

/-- A list of entries with distinct keys. -/
structure InsertionMap (κ : Type) (α : Type) where
  entries : List (κ × α)
  nodup : (entries.map Prod.fst).Nodup
deriving DecidableEq

namespace InsertionMap

variable {κ α : Type}

def empty : InsertionMap κ α where
  entries := []
  nodup := List.nodup_nil

instance : Inhabited (InsertionMap κ α) := ⟨empty⟩

/-- The keys, in insertion order. -/
def keys (map : InsertionMap κ α) : List κ :=
  map.entries.map Prod.fst

def size (map : InsertionMap κ α) : Nat :=
  map.entries.length

/-- The entry at a place of the insertion order. -/
def entryAt? (map : InsertionMap κ α) (place : Nat) : Option (κ × α) :=
  map.entries[place]?

variable [DecidableEq κ]

def get? (map : InsertionMap κ α) (key : κ) : Option α :=
  map.entries.lookup key

def contains (map : InsertionMap κ α) (key : κ) : Bool :=
  map.keys.contains key

/-- The place of a key in the insertion order. -/
def placeOf? (map : InsertionMap κ α) (key : κ) : Option Nat :=
  map.keys.idxOf? key

/-- The entries after the value of `key` was set: in place if the key is
known, at the end otherwise. -/
def insertEntry (key : κ) (value : α) : List (κ × α) → List (κ × α)
  | [] => [(key, value)]
  | entry :: rest =>
    if entry.1 = key then (key, value) :: rest
    else entry :: insertEntry key value rest

theorem mem_keys_insertEntry {key k : κ} {value : α} {entries : List (κ × α)} :
    k ∈ (insertEntry key value entries).map Prod.fst ↔
      k = key ∨ k ∈ entries.map Prod.fst := by
  induction entries with
  | nil => simp [insertEntry]
  | cons entry rest ih =>
    by_cases h : entry.1 = key
    · simp [insertEntry, h]
    · simp only [insertEntry, h, if_false, List.map_cons, List.mem_cons, ih]
      grind

theorem nodup_insertEntry {key : κ} {value : α} {entries : List (κ × α)}
    (h : (entries.map Prod.fst).Nodup) :
    ((insertEntry key value entries).map Prod.fst).Nodup := by
  induction entries with
  | nil => simp [insertEntry]
  | cons entry rest ih =>
    rw [List.map_cons, List.nodup_cons] at h
    by_cases hkey : entry.1 = key
    · rw [insertEntry, if_pos hkey, List.map_cons, List.nodup_cons, ← hkey]
      exact h
    · rw [insertEntry, if_neg hkey, List.map_cons, List.nodup_cons,
        mem_keys_insertEntry]
      exact ⟨by simp_all, ih h.2⟩

def insert (map : InsertionMap κ α) (key : κ) (value : α) :
    InsertionMap κ α where
  entries := insertEntry key value map.entries
  nodup := nodup_insertEntry map.nodup

/-- Forget a key. -/
def erase (map : InsertionMap κ α) (key : κ) : InsertionMap κ α where
  entries := map.entries.filter fun entry => entry.1 ≠ key
  nodup := map.nodup.sublist (List.filter_sublist.map Prod.fst)

omit [DecidableEq κ] in
/-- Forget the `count` oldest entries. -/
def dropOldest (map : InsertionMap κ α) (count : Nat) : InsertionMap κ α where
  entries := map.entries.drop count
  nodup := map.nodup.sublist ((List.drop_sublist count map.entries).map Prod.fst)

theorem contains_iff {map : InsertionMap κ α} {key : κ} :
    map.contains key = true ↔ key ∈ map.keys := by
  rw [contains, List.contains_iff_mem]

theorem get?_eq_none_iff {map : InsertionMap κ α} {key : κ} :
    map.get? key = none ↔ key ∉ map.keys :=
  lookup_eq_none_iff_not_mem_keys

theorem lookup_insertEntry {key k : κ} {value : α} {entries : List (κ × α)} :
    (insertEntry key value entries).lookup k =
      if k = key then some value else entries.lookup k := by
  induction entries with
  | nil => rw [insertEntry, lookup_cons_eq_ite]
  | cons entry rest ih =>
    by_cases hkey : entry.1 = key
    · rw [insertEntry, if_pos hkey, lookup_cons_eq_ite, lookup_cons_eq_ite, hkey]
      by_cases hk : k = key
      · rw [if_pos hk, if_pos hk]
      · rw [if_neg hk, if_neg hk, if_neg hk]
    · rw [insertEntry, if_neg hkey, lookup_cons_eq_ite, lookup_cons_eq_ite, ih]
      by_cases hk : k = key
      · have hne : k ≠ entry.1 := fun h => hkey (h.symm.trans hk)
        rw [if_neg hne, if_pos hk, if_pos hk]
      · rw [if_neg hk, if_neg hk]

theorem get?_insert (map : InsertionMap κ α) (key k : κ) (value : α) :
    (map.insert key value).get? k =
      if k = key then some value else map.get? k :=
  lookup_insertEntry

theorem get?_erase (map : InsertionMap κ α) (key k : κ) :
    (map.erase key).get? k = if k = key then none else map.get? k :=
  lookup_filter_ne k key map.entries

/-- A new key goes to the end of the insertion order. -/
theorem entries_insert_of_not_mem {map : InsertionMap κ α} {key : κ} {value : α}
    (h : key ∉ map.keys) :
    (map.insert key value).entries = map.entries ++ [(key, value)] := by
  have happend : ∀ {entries : List (κ × α)}, key ∉ entries.map Prod.fst →
      insertEntry key value entries = entries ++ [(key, value)] := by
    intro entries hkey
    induction entries with
    | nil => rfl
    | cons entry rest ih =>
      rw [List.map_cons, List.mem_cons, not_or] at hkey
      rw [insertEntry, if_neg (Ne.symm hkey.1), ih hkey.2, List.cons_append]
  exact happend h

end InsertionMap

end Cellular
