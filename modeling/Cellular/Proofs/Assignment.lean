import Mathlib.Data.List.GetD
import Mathlib.Data.List.Sort
import Cellular.Proofs.Symmetry
import Cellular.Table.Assignment

/-!
# Assignments and tuples of indices

The assignments of a clause are told apart by the places of the chosen values
in their domains, since a value may stand in a domain twice.  The tuples of such
places come in lexicographic order, and a tuple is the same as a choice of a
place for every variable of the clause.
-/

namespace Cellular

/-- The tuples of numbers below given bounds, in lexicographic order: the last
number varies fastest. -/
def indexTuples : List ℕ → List (List ℕ)
  | [] => [[]]
  | bound :: rest =>
    (List.range bound).flatMap fun i => (indexTuples rest).map (i :: ·)

/-- The values at given places of some domains. -/
def valuesAt (domains : List (List State)) (tuple : List ℕ) : List State :=
  List.zipWith (fun domain i => domain.getD i 0) domains tuple

theorem mem_indexTuples_iff {bounds tuple : List ℕ} :
    tuple ∈ indexTuples bounds ↔ List.Forall₂ (· < ·) tuple bounds := by
  induction bounds generalizing tuple with
  | nil => cases tuple <;> simp [indexTuples]
  | cons bound rest ih => cases tuple <;> simp [indexTuples, ih]

/-- The tuples are listed in strictly ascending order. -/
theorem pairwise_indexTuples (bounds : List ℕ) :
    (indexTuples bounds).Pairwise (· < ·) := by
  induction bounds with
  | nil => simp [indexTuples]
  | cons bound rest ih =>
    rw [indexTuples, List.pairwise_flatMap]
    constructor
    · intro i _
      rw [List.pairwise_map]
      exact ih.imp fun h => List.cons_lt_cons_iff.2 (Or.inr ⟨rfl, h⟩)
    · refine List.pairwise_lt_range.imp ?_
      intro i j hij x hx y hy
      obtain ⟨_, _, rfl⟩ := List.mem_map.1 hx
      obtain ⟨_, _, rfl⟩ := List.mem_map.1 hy
      exact List.cons_lt_cons_iff.2 (Or.inl hij)

private theorem map_getD_range (domain : List State) :
    (List.range domain.length).map (domain.getD · 0) = domain := by
  apply List.ext_getElem
  · simp
  · intro n hn hn'
    simp [hn']

/-- The assignments are the values at all tuples of places, in the order of the
tuples. -/
theorem assignments_eq_map_indexTuples (domains : List (List State)) :
    assignments domains =
      (indexTuples (domains.map List.length)).map (valuesAt domains) := by
  induction domains with
  | nil => rfl
  | cons domain rest ih =>
    rw [assignments, List.map_cons, indexTuples, List.map_flatMap]
    conv_lhs => rw [← map_getD_range domain, List.flatMap_map]
    congr 1
    funext i
    rw [ih, List.map_map, List.map_map]
    rfl

/-- The lexicographic order of two tuples that are listed along ascending
variables is decided at the least variable at which they differ. -/
theorem map_lt_map_iff {ids : List ℕ} (hids : ids.Pairwise (· < ·))
    (p q : ℕ → ℕ) :
    ids.map p < ids.map q ↔
      ∃ id ∈ ids, p id < q id ∧ ∀ other ∈ ids, other < id → p other = q other := by
  induction ids with
  | nil => simp
  | cons id rest ih =>
    rw [List.pairwise_cons] at hids
    rw [List.map_cons, List.map_cons, List.cons_lt_cons_iff, ih hids.2]
    constructor
    · rintro (hlt | ⟨heq, least, hleast, hlt, hbelow⟩)
      · refine ⟨id, List.mem_cons_self, hlt, fun other hother hless => ?_⟩
        rcases List.mem_cons.1 hother with rfl | hrest
        · exact absurd hless (lt_irrefl _)
        · exact absurd (hids.1 other hrest) (not_lt_of_gt hless)
      · refine ⟨least, List.mem_cons_of_mem _ hleast, hlt, fun other hother => ?_⟩
        rcases List.mem_cons.1 hother with rfl | hrest
        · exact fun _ => heq
        · exact hbelow other hrest
    · rintro ⟨least, hleast, hlt, hbelow⟩
      rcases List.mem_cons.1 hleast with rfl | hrest
      · exact Or.inl hlt
      · refine Or.inr ⟨hbelow id List.mem_cons_self (hids.1 least hrest), least,
          hrest, hlt, fun other hother => ?_⟩
        exact hbelow other (List.mem_cons_of_mem _ hother)

/-- A tuple along different variables is a choice of a number for each. -/
theorem exists_map_eq {ids tuple : List ℕ} (hids : ids.Nodup)
    (hlength : tuple.length = ids.length) : ∃ p : ℕ → ℕ, ids.map p = tuple := by
  refine ⟨fun id => tuple.getD (ids.idxOf id) 0, ?_⟩
  apply List.ext_getElem
  · rw [List.length_map, hlength]
  · intro n hn hn'
    rw [List.length_map] at hn
    rw [List.getElem_map, List.Nodup.idxOf_getElem hids, List.getD_eq_getElem]

namespace Clause

theorem mem_insertAscending_iff {n m : ℕ} {ids : List ℕ} :
    m ∈ insertAscending n ids ↔ m = n ∨ m ∈ ids := by
  induction ids with
  | nil => simp [insertAscending]
  | cons id rest ih =>
    rw [insertAscending]
    split
    · exact List.mem_cons
    · split
      · rename_i heq
        rw [heq, List.mem_cons, or_self_left]
      · rw [List.mem_cons, ih, List.mem_cons, or_left_comm]

theorem pairwise_insertAscending {n : ℕ} {ids : List ℕ}
    (hids : ids.Pairwise (· < ·)) : (insertAscending n ids).Pairwise (· < ·) := by
  induction ids with
  | nil => simp [insertAscending]
  | cons id rest ih =>
    have hcons := List.pairwise_cons.1 hids
    rw [insertAscending]
    split
    · rename_i hlt
      refine List.pairwise_cons.2 ⟨fun m hm => ?_, hids⟩
      rcases List.mem_cons.1 hm with rfl | hm
      · exact hlt
      · exact hlt.trans (hcons.1 m hm)
    · split
      · exact hids
      · refine List.pairwise_cons.2 ⟨fun m hm => ?_, ih hcons.2⟩
        rcases mem_insertAscending_iff.1 hm with rfl | hm
        · omega
        · exact hcons.1 m hm

/-- The variables of a clause are listed in ascending order. -/
theorem pairwise_variableIds (clause : Clause) :
    clause.variableIds.Pairwise (· < ·) := by
  rw [variableIds]
  induction clause.fields.filterMap Field.var? with
  | nil => exact List.Pairwise.nil
  | cons id rest ih => exact pairwise_insertAscending ih

theorem mem_variableIds_iff {clause : Clause} {id : ℕ} :
    id ∈ clause.variableIds ↔ Field.var id ∈ clause.fields := by
  have hfold : ∀ ids : List ℕ, id ∈ ids.foldr insertAscending [] ↔ id ∈ ids := by
    intro ids
    induction ids with
    | nil => simp
    | cons m rest ih =>
      rw [List.foldr_cons, mem_insertAscending_iff, ih, List.mem_cons]
  rw [variableIds, hfold, List.mem_filterMap]
  constructor
  · rintro ⟨field, hfield, hvar⟩
    cases field with
    | state s => simp [Field.var?] at hvar
    | var other =>
      rw [Field.var?, Option.some.injEq] at hvar
      exact hvar ▸ hfield
  · intro h
    exact ⟨_, h, rfl⟩

/-- A motion of the ring leaves the fields of a clause the same up to order. -/
theorem mem_fields_withRing_iff {clause : Clause} {field : Field}
    (motion : Equiv.Perm (Fin 8)) :
    field ∈ (clause.withRing (clause.ring.reindex motion)).fields ↔
      field ∈ clause.fields := by
  have hring := (Symmetry.perm_cells_reindex motion clause.ring).mem_iff (a := field)
  simp only [fields, inputs, withRing, List.mem_append, List.mem_cons, hring]

theorem variableIds_withRing (clause : Clause) (motion : Equiv.Perm (Fin 8)) :
    (clause.withRing (clause.ring.reindex motion)).variableIds =
      clause.variableIds := by
  apply (pairwise_variableIds _).eq_of_mem_iff (pairwise_variableIds clause)
  intro id
  rw [mem_variableIds_iff, mem_variableIds_iff, mem_fields_withRing_iff]

/-- A variable that is listed has its own value. -/
theorem lookup_zip_map {ids : List ℕ} {id : ℕ} (hid : id ∈ ids)
    (value : ℕ → State) : (ids.zip (ids.map value)).lookup id = some (value id) := by
  induction ids with
  | nil => simp at hid
  | cons other rest ih =>
    rw [List.map_cons, List.zip_cons_cons, lookup_cons_eq_ite]
    split
    · rename_i heq
      rw [heq]
    · rename_i hne
      exact ih ((List.mem_cons.1 hid).resolve_left hne)

end Clause

end Cellular
