/-!
# Arrangements of a list

Two ways through the rearrangements of a list.  `arrangements` lists the
different ones, in the order in which the index permutations that first produce
them follow each other lexicographically; `nextArrangement` steps from one to
the next greater one by the order of the values themselves.
-/

namespace Cellular

section Distinct

variable {α : Type} [DecidableEq α]

/-- The rearrangements of the first `count` choices from `values`.  Equal values
are interchangeable, so each choice takes the first of them. -/
def arrangementsOf : Nat → List α → List (List α)
  | 0, _ => [[]]
  | count + 1, values =>
    values.eraseDups.flatMap fun value =>
      (arrangementsOf count (values.erase value)).map (value :: ·)

/-- The different rearrangements of a list. -/
def arrangements (values : List α) : List (List α) :=
  arrangementsOf values.length values

theorem length_of_mem_arrangementsOf {count : Nat} {values choice : List α}
    (h : choice ∈ arrangementsOf count values) : choice.length = count := by
  induction count generalizing values choice with
  | zero =>
    simp only [arrangementsOf, List.mem_singleton] at h
    simp [h]
  | succ count ih =>
    simp only [arrangementsOf, List.mem_flatMap, List.mem_map] at h
    obtain ⟨value, _, rest, hrest, rfl⟩ := h
    simp [ih hrest]

theorem length_of_mem_arrangements {values choice : List α}
    (h : choice ∈ arrangements values) : choice.length = values.length :=
  length_of_mem_arrangementsOf h

private theorem mem_arrangementsOf_iff {count : Nat} {values choice : List α}
    (hcount : values.length = count) :
    choice ∈ arrangementsOf count values ↔ choice.Perm values := by
  induction count generalizing values choice with
  | zero =>
    have hnil : values = [] := List.eq_nil_of_length_eq_zero hcount
    simp [arrangementsOf, hnil]
  | succ count ih =>
    have herase : ∀ value ∈ values, (values.erase value).length = count := by
      intro value hvalue
      rw [List.length_erase_of_mem hvalue, hcount, Nat.add_sub_cancel]
    simp only [arrangementsOf, List.mem_flatMap, List.mem_map,
      List.mem_eraseDups]
    constructor
    · rintro ⟨value, hvalue, rest, hrest, rfl⟩
      have hperm := (ih (herase value hvalue)).1 hrest
      exact (hperm.cons value).trans (List.perm_cons_erase hvalue).symm
    · intro hperm
      cases choice with
      | nil => simp [← hperm.length_eq] at hcount
      | cons value rest =>
        obtain ⟨hvalue, hrest⟩ := List.cons_perm_iff_perm_erase.1 hperm
        exact ⟨value, hvalue, rest, (ih (herase value hvalue)).2 hrest, rfl⟩

/-- The arrangements of a list are its permutations. -/
theorem mem_arrangements_iff {values choice : List α} :
    choice ∈ arrangements values ↔ choice.Perm values :=
  mem_arrangementsOf_iff rfl

end Distinct

section Ordered

variable {α : Type} [LT α] [DecidableLT α]

/-- In an ascending list, the first value above `a`, with the list in which `a`
takes its place. -/
def exchange (a : α) : List α → Option (α × List α)
  | [] => none
  | b :: rest =>
    if a < b then some (b, a :: rest)
    else (exchange a rest).map fun (above, others) => (above, b :: others)

/-- The next greater rearrangement of a list, if there is one.  When the tail
has none it is descending, and so ascending when reversed: the head is then
exchanged for the least greater value of the tail. -/
def successor : List α → Option (List α)
  | [] => none
  | a :: rest =>
    match successor rest with
    | some next => some (a :: next)
    | none => (exchange a rest.reverse).map fun (above, others) => above :: others

/-- Step to the next greater rearrangement.  After the last one the list is
left in ascending order and the answer is `false`. -/
def nextArrangement (values : List α) : Bool × List α :=
  match successor values with
  | some next => (true, next)
  | none => (false, values.reverse)

end Ordered

end Cellular
