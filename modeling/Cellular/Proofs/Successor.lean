import Mathlib.Data.List.Lex
import Mathlib.Data.Set.Finite.List
import Mathlib.Order.WellFoundedSet
import Cellular.Proofs.Arrangement

/-!
# Stepping through arrangements

A step leads to the least arrangement that comes after a list in dictionary order.  When
the tail of the list can still be stepped, the head stays.  Otherwise the tail is
descending: the head gives way to the least greater value of the tail, and what remains
is put in ascending order.  As every step goes up among finitely many arrangements, a
walk passes through all that come after its start and ends.
-/

namespace Cellular

variable {α : Type} [LinearOrder α] {a above : α} {l next last others : List α}
  {passed : List (List α)}

/-- The arrangements of a list that come after it. -/
def laterArrangements (l : List α) : Set (List α) :=
  {m | m.Perm l ∧ l < m}

/-! ## One step -/

/-- A value is taken out of a list as the least one above `a`, which takes its place. -/
structure Exchanged (a : α) (l : List α) (above : α) (others : List α) : Prop where
  lt : a < above
  least : ∀ b ∈ l, a < b → above ≤ b
  perm : (above :: others).Perm (a :: l)
  ascending : others.Pairwise (· ≤ ·)

theorem exchange_eq_none_iff : exchange a l = none ↔ ∀ b ∈ l, b ≤ a := by
  induction l with
  | nil => simp [exchange]
  | cons b rest ih =>
    rw [exchange, List.forall_mem_cons]
    split
    · rename_i hlt
      simp [hlt]
    · rename_i hle
      rw [Option.map_eq_none_iff, ih]
      exact ⟨fun hrest => ⟨le_of_not_gt hle, hrest⟩, fun hall => hall.2⟩

theorem exchanged_of_exchange (hl : l.Pairwise (· ≤ ·))
    (h : exchange a l = some (above, others)) : Exchanged a l above others := by
  induction l generalizing others with
  | nil => cases h
  | cons b rest ih =>
    rw [List.pairwise_cons] at hl
    rw [exchange] at h
    split at h
    · rename_i hlt
      cases h
      refine ⟨hlt, ?_, List.Perm.swap a above rest, ?_⟩
      · intro c hc _
        rcases List.mem_cons.1 hc with rfl | hrest
        · exact le_refl c
        · exact hl.1 c hrest
      · exact List.pairwise_cons.2 ⟨fun c hc => hlt.le.trans (hl.1 c hc), hl.2⟩
    · rename_i hle
      obtain ⟨⟨found, tail⟩, hfound, heq⟩ := Option.map_eq_some_iff.1 h
      cases heq
      have hrest := ih hl.2 hfound
      refine ⟨hrest.lt, ?_, ?_, ?_⟩
      · intro c hc hac
        rcases List.mem_cons.1 hc with rfl | hc
        · exact absurd hac hle
        · exact hrest.least c hc hac
      · calc
          (above :: b :: tail).Perm (b :: above :: tail) := List.Perm.swap b above tail
          List.Perm _ (b :: a :: rest) := hrest.perm.cons b
          List.Perm _ (a :: b :: rest) := List.Perm.swap a b rest
      · refine List.pairwise_cons.2 ⟨fun c hc => ?_, hrest.ascending⟩
        rcases List.mem_cons.1 (hrest.perm.subset (List.mem_cons_of_mem above hc)) with
          rfl | hc
        · exact le_of_not_gt hle
        · exact hl.1 c hc

/-- A list has no successor exactly if it is descending. -/
theorem successor_eq_none_iff : successor l = none ↔ l.Pairwise (· ≥ ·) := by
  induction l with
  | nil => simp [successor]
  | cons a rest ih =>
    rw [successor, List.pairwise_cons, ← ih]
    cases successor rest with
    | some next => simp
    | none => simp [exchange_eq_none_iff]

/-- The successor of a list is the least arrangement that comes after it. -/
theorem isLeast_of_successor (h : successor l = some next) :
    IsLeast (laterArrangements l) next := by
  induction l generalizing next with
  | nil => cases h
  | cons a rest ih =>
    rw [successor] at h
    split at h
    · rename_i tail htail
      cases h
      obtain ⟨⟨hperm, hlt⟩, hleast⟩ := ih htail
      refine ⟨⟨hperm.cons a, List.cons_lt_cons_iff.2 (Or.inr ⟨rfl, hlt⟩)⟩, ?_⟩
      rintro m ⟨hm, hgreater⟩
      cases m with
      | nil => cases hm.nil_eq
      | cons b others =>
        rcases List.cons_lt_cons_iff.1 hgreater with hab | ⟨rfl, hrest⟩
        · exact (List.cons_lt_cons_iff.2 (Or.inl hab)).le
        · exact List.cons_le_cons a (hleast ⟨hm.cons_inv, hrest⟩)
    · rename_i htail
      have hdescending := successor_eq_none_iff.1 htail
      obtain ⟨⟨above, others⟩, hfound, heq⟩ := Option.map_eq_some_iff.1 h
      cases heq
      have hexchanged := exchanged_of_exchange (List.pairwise_reverse.2 hdescending) hfound
      have hperm : (above :: others).Perm (a :: rest) :=
        hexchanged.perm.trans (rest.reverse_perm.cons a)
      refine ⟨⟨hperm, List.cons_lt_cons_iff.2 (Or.inl hexchanged.lt)⟩, ?_⟩
      rintro m ⟨hm, hgreater⟩
      cases m with
      | nil => cases hm.nil_eq
      | cons b tail =>
        -- With the head in place a descending tail cannot go up, so the head does.
        have hab : a < b := by
          rcases List.cons_lt_cons_iff.1 hgreater with hab | ⟨rfl, hrest⟩
          · exact hab
          · exact absurd hrest (not_gt_of_perm hdescending hm.cons_inv)
        have hb : b ∈ rest.reverse := by
          rw [List.mem_reverse]
          exact List.mem_of_ne_of_mem hab.ne' (hm.subset List.mem_cons_self)
        rcases (hexchanged.least b hb hab).lt_or_eq with hlt | rfl
        · exact (List.cons_lt_cons_iff.2 (Or.inl hlt)).le
        · have htails : tail.Perm others := (hm.trans hperm.symm).cons_inv
          exact List.cons_le_cons above (not_lt.1 (not_lt_of_perm hexchanged.ascending htails))

/-- A step is made exactly to the least arrangement that comes after the list. -/
theorem nextArrangement_eq_true_iff :
    nextArrangement l = (true, next) ↔ IsLeast (laterArrangements l) next := by
  rw [nextArrangement]
  cases h : successor l with
  | some found =>
    have hfound := isLeast_of_successor h
    simp only [Prod.mk.injEq, true_and]
    constructor
    · rintro rfl
      exact hfound
    · exact fun hnext => hfound.unique hnext
  | none =>
    simp only [Prod.mk.injEq, Bool.false_eq_true, false_and, false_iff]
    rintro ⟨⟨hperm, hlt⟩, -⟩
    exact not_gt_of_perm (successor_eq_none_iff.1 h) hperm hlt

/-- No step is made exactly if no arrangement comes after the list.  It is then left in
ascending order. -/
theorem nextArrangement_eq_false_iff :
    nextArrangement l = (false, last) ↔
      laterArrangements l = ∅ ∧ last.Perm l ∧ last.Pairwise (· ≤ ·) := by
  rw [nextArrangement]
  cases h : successor l with
  | some found =>
    have hfound := isLeast_of_successor h
    simp only [Prod.mk.injEq, Bool.true_eq_false, false_and, false_iff]
    rintro ⟨hempty, -⟩
    exact hempty.subset hfound.1
  | none =>
    have hdescending := successor_eq_none_iff.1 h
    have hascending : l.reverse.Pairwise (· ≤ ·) := List.pairwise_reverse.2 hdescending
    simp only [Prod.mk.injEq, true_and]
    constructor
    · rintro rfl
      refine ⟨?_, l.reverse_perm, hascending⟩
      rw [Set.eq_empty_iff_forall_notMem]
      rintro m ⟨hperm, hlt⟩
      exact not_gt_of_perm hdescending hperm hlt
    · rintro ⟨-, hperm, hsorted⟩
      exact (l.reverse_perm.trans hperm.symm).eq_of_pairwise' hascending hsorted

/-! ## Many steps -/

/-- Steps are made from a list until none can be made: they pass through some
arrangements, and the list is left as `last`. -/
inductive Walk : List α → List (List α) → List α → Prop
  | stop {l last : List α} (h : nextArrangement l = (false, last)) : Walk l [] last
  | step {l next last : List α} {passed : List (List α)}
      (h : nextArrangement l = (true, next)) (rest : Walk next passed last) :
      Walk l (next :: passed) last

/-- There are finitely many arrangements and every step goes up, so a walk ends. -/
theorem exists_walk (l : List α) : ∃ passed last, Walk l passed last := by
  have hfinite : {m : List α | m.Perm l}.Finite := by
    refine (List.finite_toSet (arrangements l)).subset fun m hm => ?_
    exact mem_arrangements_iff.2 hm
  have hwell : {m : List α | m.Perm l}.WellFoundedOn (· > ·) := hfinite.wellFoundedOn
  refine hwell.induction (P := fun m => ∃ passed last, Walk m passed last)
    (List.Perm.refl l) fun m hm ih => ?_
  obtain ⟨made, next, hstep⟩ : ∃ made next, nextArrangement m = (made, next) := ⟨_, _, rfl⟩
  cases made with
  | false => exact ⟨[], next, .stop hstep⟩
  | true =>
    obtain ⟨hperm, hlt⟩ := (nextArrangement_eq_true_iff.1 hstep).1
    obtain ⟨passed, last, hwalk⟩ := ih next (hperm.trans hm) hlt
    exact ⟨next :: passed, last, .step hstep hwalk⟩

namespace Walk

/-- A walk has no choice. -/
theorem unique {otherPassed : List (List α)} {otherLast : List α}
    (hwalk : Walk l passed last) (hother : Walk l otherPassed otherLast) :
    otherPassed = passed ∧ otherLast = last := by
  induction hwalk generalizing otherPassed with
  | stop h =>
    cases hother with
    | stop h' =>
      rw [h] at h'
      cases h'
      exact ⟨rfl, rfl⟩
    | step h' _ =>
      rw [h] at h'
      cases h'
  | step h _ ih =>
    cases hother with
    | stop h' =>
      rw [h] at h'
      cases h'
    | step h' rest =>
      rw [h] at h'
      cases h'
      obtain ⟨rfl, rfl⟩ := ih rest
      exact ⟨rfl, rfl⟩

/-- What a walk passes through is what comes after its start. -/
theorem mem_iff (hwalk : Walk l passed last) {m : List α} :
    m ∈ passed ↔ m ∈ laterArrangements l := by
  induction hwalk with
  | stop h =>
    rw [(nextArrangement_eq_false_iff.1 h).1]
    simp
  | @step l next _ _ h _ ih =>
    obtain ⟨⟨hperm, hlt⟩, hleast⟩ := nextArrangement_eq_true_iff.1 h
    rw [List.mem_cons, ih]
    constructor
    · rintro (rfl | ⟨hm, hafter⟩)
      · exact ⟨hperm, hlt⟩
      · exact ⟨hm.trans hperm, hlt.trans hafter⟩
    · rintro ⟨hm, hafter⟩
      rcases (hleast ⟨hm, hafter⟩).lt_or_eq with hless | rfl
      · exact Or.inr ⟨hm.trans hperm.symm, hless⟩
      · exact Or.inl rfl

theorem pairwise (hwalk : Walk l passed last) : passed.Pairwise (· < ·) := by
  induction hwalk with
  | stop _ => exact List.Pairwise.nil
  | step _ rest ih =>
    exact List.pairwise_cons.2 ⟨fun m hm => (rest.mem_iff.1 hm).2, ih⟩

/-- A walk leaves the list in ascending order. -/
theorem ascending (hwalk : Walk l passed last) :
    last.Perm l ∧ last.Pairwise (· ≤ ·) := by
  induction hwalk with
  | stop h => exact (nextArrangement_eq_false_iff.1 h).2
  | step h _ ih => exact ⟨ih.1.trans (nextArrangement_eq_true_iff.1 h).1.1, ih.2⟩

/-- From different values in ascending order, a walk passes through the arrangements as
they are listed, and returns to where it started. -/
theorem arrangements_eq (hwalk : Walk l passed last) (hl : l.Pairwise (· < ·)) :
    arrangements l = l :: passed ∧ last = l := by
  have hle : l.Pairwise (· ≤ ·) := hl.imp le_of_lt
  obtain ⟨firsts, hfirsts, hordered, -⟩ := listedByFirst_arrangementsOf id hl rfl
  rw [List.map_id, List.map_id_fun, List.map_id] at hfirsts
  constructor
  · have hpairwise : (l :: passed).Pairwise (· < ·) :=
      List.pairwise_cons.2 ⟨fun m hm => (hwalk.mem_iff.1 hm).2, hwalk.pairwise⟩
    rw [arrangements, hfirsts]
    refine hordered.eq_of_mem_iff hpairwise fun m => ?_
    rw [← hfirsts, ← arrangements, mem_arrangements_iff, List.mem_cons, hwalk.mem_iff]
    constructor
    · intro hm
      exact (not_lt.1 (not_lt_of_perm hle hm)).eq_or_lt'.imp id fun hlt => ⟨hm, hlt⟩
    · rintro (rfl | ⟨hm, -⟩)
      · exact List.Perm.refl m
      · exact hm
  · exact hwalk.ascending.1.eq_of_pairwise' hwalk.ascending.2 hle

end Walk

/-- **A step leads to the next arrangement in dictionary order.**  If some arrangement
comes after a list, a step is made to the least of them; otherwise none is made and the
list is left in ascending order.  So stepping until no step can be made is possible in
one way, which passes once and in ascending order through all the arrangements that come
after the list. -/
theorem nextArrangement_steps_upward (l : List α) :
    ((laterArrangements l).Nonempty →
      ∃ next, nextArrangement l = (true, next) ∧ IsLeast (laterArrangements l) next) ∧
    (laterArrangements l = ∅ →
      ∃ last, nextArrangement l = (false, last) ∧ last.Perm l ∧ last.Pairwise (· ≤ ·)) ∧
    ∃ passed last, (∀ p q, Walk l p q ↔ p = passed ∧ q = last) ∧
      passed.Pairwise (· < ·) ∧ (∀ m, m ∈ passed ↔ m ∈ laterArrangements l) ∧
      last.Perm l ∧ last.Pairwise (· ≤ ·) := by
  obtain ⟨made, found, hstep⟩ : ∃ made found, nextArrangement l = (made, found) :=
    ⟨_, _, rfl⟩
  obtain ⟨passed, last, hwalk⟩ := exists_walk l
  refine ⟨fun hlater => ?_, fun hnone => ?_, passed, last, fun p q => ⟨hwalk.unique, ?_⟩,
    hwalk.pairwise, fun m => hwalk.mem_iff, hwalk.ascending⟩
  · cases made with
    | true => exact ⟨found, hstep, nextArrangement_eq_true_iff.1 hstep⟩
    | false => exact absurd (nextArrangement_eq_false_iff.1 hstep).1 hlater.ne_empty
  · cases made with
    | true =>
      have hmem := (nextArrangement_eq_true_iff.1 hstep).1
      rw [hnone] at hmem
      cases hmem
    | false => exact ⟨found, hstep, (nextArrangement_eq_false_iff.1 hstep).2⟩
  · rintro ⟨rfl, rfl⟩
    exact hwalk

-- Equal values are not told apart.
example : nextArrangement [1, 3, 3, 2] = (true, [2, 1, 3, 3]) := by decide

end Cellular
