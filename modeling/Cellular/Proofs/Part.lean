import Mathlib.Data.Option.Basic
import Cellular.Proofs.Writes
import Cellular.Table.Dispatch

/-!
# Parts of a table

A worker folds the writes of a clause into a part before the driver sees them.
Merging the part into a table has the effect of the single writes, so a build
from parts goes through the same tables as a build from writes, and makes the
same reports.
-/

namespace Cellular

namespace Table

theorem eq_of_lookup?_eq {t u : Table} (hname : t.name = u.name)
    (hpacking : t.packing = u.packing)
    (h : ∀ key, t.lookup? key = u.lookup? key) : t = u := by
  have hentries : t.entries = u.entries := Std.ExtTreeMap.ext_getElem? @h
  cases t
  cases u
  cases hname
  cases hpacking
  cases hentries
  rfl

/-- What is written into a table lies over what the table had. -/
theorem lookup?_writeAll_eq_or {t u : Table} {rest : ℕ → Option State}
    (hpacking : t.packing = u.packing)
    (h : ∀ key, t.lookup? key = (u.lookup? key).or (rest key))
    (transitions : List (Configuration × State)) (key : ℕ) :
    (t.writeAll transitions).lookup? key =
      ((u.writeAll transitions).lookup? key).or (rest key) := by
  induction transitions generalizing t u with
  | nil => exact h key
  | cons transition others ih =>
    rw [writeAll_cons, writeAll_cons]
    apply ih (t := t.write transition) (u := u.write transition) hpacking
    intro k
    rw [lookup?_write, lookup?_write, hpacking, h k]
    split
    · rfl
    · rfl

private theorem getElem?_foldl_insert {entries : List (ℕ × State)}
    (hdistinct : entries.Pairwise fun a b => a.1 ≠ b.1) (m : Entries) (key : ℕ) :
    (entries.foldl (fun m entry => m.insert entry.1 entry.2) m)[key]? =
      (entries.lookup key).or m[key]? := by
  induction entries generalizing m with
  | nil => rfl
  | cons entry rest ih =>
    rw [List.pairwise_cons] at hdistinct
    rw [List.foldl_cons, ih hdistinct.2, lookup_cons_eq_ite,
      Std.ExtTreeMap.getElem?_insert]
    simp only [Nat.compare_eq_eq]
    by_cases hkey : key = entry.1
    · have hrest : rest.lookup key = none := by
        rw [lookup_eq_none_iff_not_mem_keys, List.mem_map]
        rintro ⟨other, hother, heq⟩
        exact hdistinct.1 other hother (hkey.symm.trans heq.symm)
      rw [hrest, if_pos hkey, if_pos hkey.symm]
      rfl
    · rw [if_neg hkey, if_neg (Ne.symm hkey)]

private theorem lookup_toList (part : Entries) (key : ℕ) :
    part.toList.lookup key = part[key]? := by
  cases h : part[key]? with
  | none =>
    rw [lookup_eq_none_iff_not_mem_keys, List.mem_map]
    rintro ⟨⟨k, s⟩, hmem, rfl⟩
    rw [Std.ExtTreeMap.mem_toList_iff_getElem?_eq_some] at hmem
    rw [h] at hmem
    cases hmem
  | some s =>
    cases hlookup : part.toList.lookup key with
    | none =>
      rw [lookup_eq_none_iff_not_mem_keys, List.mem_map] at hlookup
      exact absurd ⟨_, Std.ExtTreeMap.mem_toList_iff_getElem?_eq_some.2 h, rfl⟩
        hlookup
    | some t =>
      have hmem := mem_of_lookup_eq_some hlookup
      rw [Std.ExtTreeMap.mem_toList_iff_getElem?_eq_some, h] at hmem
      exact hmem.symm

/-- The entries of a part lie over those of the table it is merged into. -/
theorem lookup?_merge (table : Table) (part : Entries) (key : ℕ) :
    (table.merge part).lookup? key = (part[key]?).or (table.lookup? key) := by
  have hdistinct : part.toList.Pairwise fun a b => a.1 ≠ b.1 := by
    refine Std.ExtTreeMap.distinct_keys_toList.imp ?_
    intro a b h heq
    exact h (Nat.compare_eq_eq.2 heq)
  rw [lookup?, merge, getElem?_foldl_insert hdistinct, lookup_toList]
  rfl

end Table

namespace Rule

variable {rule : Rule}

/-- Writes leave in a table what they leave in the blank table, and below it what
the table had. -/
theorem lookup?_writeAll_eq_or_blank {table : Table}
    (hpacking : table.packing = rule.packing)
    (transitions : List (Configuration × State)) (key : ℕ) :
    (table.writeAll transitions).lookup? key =
      ((rule.blankTable.writeAll transitions).lookup? key).or (table.lookup? key) := by
  apply Table.lookup?_writeAll_eq_or (u := rule.blankTable) hpacking
  intro k
  have hblank : rule.blankTable.lookup? k = none :=
    Std.ExtTreeMap.getElem?_empty
  rw [hblank, Option.none_or]

/-- Merging the part of a clause is making all its writes. -/
theorem merge_partOf {table : Table} (hpacking : table.packing = rule.packing)
    (clause : Clause) :
    table.merge (rule.partOf clause) =
      table.writeAll (rule.transitions clause) := by
  apply Table.eq_of_lookup?_eq
  · rw [Table.name_writeAll]
    rfl
  · rw [Table.packing_writeAll]
    rfl
  · intro key
    rw [Table.lookup?_merge, lookup?_writeAll_eq_or_blank hpacking]
    rfl

/-- The table after the first `count` clauses. -/
def tableAfter (rule : Rule) (table : Table) (count : ℕ) : Table :=
  table.writeAll ((rule.clauses.take count).flatMap rule.transitions)

/-- The reports for the first `count` clauses. -/
def reportsAfter (rule : Rule) (table : Table) (count : ℕ) : List Progress :=
  (List.range count).map fun i =>
    ⟨i + 1, rule.clauses.length, (rule.tableAfter table (i + 1)).size⟩

theorem tableAfter_zero (rule : Rule) (table : Table) :
    rule.tableAfter table 0 = table :=
  rfl

theorem tableAfter_length (rule : Rule) (table : Table) :
    rule.tableAfter table rule.clauses.length =
      (rule.writeClauses 0 table rule.clauses).1 := by
  rw [tableAfter, List.take_length, writeClauses_fst]

@[simp]
theorem packing_tableAfter (rule : Rule) (table : Table) (count : ℕ) :
    (rule.tableAfter table count).packing = table.packing :=
  Table.packing_writeAll _ _

theorem reportsAfter_succ (rule : Rule) (table : Table) (count : ℕ) :
    rule.reportsAfter table (count + 1) = rule.reportsAfter table count ++
      [⟨count + 1, rule.clauses.length,
        (rule.tableAfter table (count + 1)).size⟩] := by
  rw [reportsAfter, List.range_succ, List.map_append]
  rfl

/-- Merging the part of the next clause leads to the table after it. -/
theorem merge_partAt {table : Table} (hpacking : table.packing = rule.packing)
    {place : ℕ} (hplace : place < rule.clauses.length) :
    (rule.tableAfter table place).merge (rule.partAt place) =
      rule.tableAfter table (place + 1) := by
  have hmerge : ∀ clause, (rule.tableAfter table place).merge
      (rule.partOf clause) =
        (rule.tableAfter table place).writeAll (rule.transitions clause) :=
    fun clause => merge_partOf (by rw [packing_tableAfter, hpacking]) clause
  rw [partAt, List.getElem?_eq_getElem hplace]
  simp only [hmerge]
  rw [tableAfter, tableAfter, ← Table.writeAll_append, List.take_add_one,
    List.getElem?_eq_getElem hplace, List.flatMap_append]
  simp

private theorem writeClauses_snd_aux (rule : Rule) (table : Table)
    (before rest : List Clause) (h : rule.clauses = before ++ rest) :
    (rule.writeClauses before.length (rule.tableAfter table before.length)
      rest).2 =
      (List.range' before.length rest.length).map fun i =>
        ⟨i + 1, rule.clauses.length, (rule.tableAfter table (i + 1)).size⟩ := by
  induction rest generalizing before with
  | nil => rfl
  | cons clause rest ih =>
    have hnext : rule.clauses = (before ++ [clause]) ++ rest := by
      rw [h, List.append_assoc]
      rfl
    have htable : (rule.tableAfter table before.length).writeAll
        (rule.transitions clause) =
          rule.tableAfter table (before.length + 1) := by
      rw [tableAfter, tableAfter, ← Table.writeAll_append, h]
      simp [List.take_append, List.take_of_length_le]
    have hrest := ih _ hnext
    rw [List.length_append, List.length_singleton] at hrest
    rw [writeClauses, List.length_cons, List.range'_succ, List.map_cons]
    simp only [htable, hrest]

/-- A build reports after every clause how many configurations are mapped. -/
theorem reportsAfter_length (rule : Rule) (table : Table) :
    rule.reportsAfter table rule.clauses.length =
      (rule.writeClauses 0 table rule.clauses).2 := by
  have h := writeClauses_snd_aux rule table [] rule.clauses rfl
  rw [List.length_nil, tableAfter_zero] at h
  rw [h, reportsAfter, List.range_eq_range']

end Rule

end Cellular
