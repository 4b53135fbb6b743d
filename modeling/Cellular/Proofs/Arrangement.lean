import Mathlib.Algebra.BigOperators.Ring.Finset
import Mathlib.Data.List.FinRange
import Mathlib.Data.Nat.Factorial.Basic
import Cellular.Rule.Arrangement

/-!
# Order and number of arrangements

Choices that lead to equal outcomes are made once.  What is listed in this way comes in
the order of the first choices: the values of a list without repetitions, by the first
places where they stand, and the arrangements of the list, by the first arrangements of
these places.  As equal values can be exchanged without effect, there are as many
arrangements as the factorials of the multiplicities leave of the factorial of the
length.
-/

namespace Cellular

/-- The outcomes of some choices are listed once each, in the order of the first choices
that lead to them. -/
def ListedByFirst {ι α : Type} (before : ι → ι → Prop) (choices : Set ι) (outcome : ι → α)
    (listing : List α) : Prop :=
  ∃ firsts : List ι, listing = firsts.map outcome ∧ firsts.Pairwise before ∧
    ∀ i ∈ firsts, i ∈ choices ∧
      ∀ j ∈ choices, outcome j = outcome i → j = i ∨ before i j

namespace ListedByFirst

variable {ι κ α β : Type} {before : ι → ι → Prop} {choices : Set ι} {outcome : ι → α}
  {listing : List α}

theorem nodup (hlisted : ListedByFirst before choices outcome listing)
    (hbefore : ∀ i j, before i j → ¬ before j i) : listing.Nodup := by
  obtain ⟨firsts, rfl, hordered, hfirst⟩ := hlisted
  rw [List.Nodup, List.pairwise_map]
  refine hordered.imp_of_mem fun {i j} hi hj hij heq => ?_
  rcases (hfirst j hj).2 i (hfirst i hi).1 heq with rfl | hji
  · exact hbefore i i hij hij
  · exact hbefore i j hij hji

/-- A choice that no other choice comes before leads to the first outcome. -/
theorem head?_eq (hlisted : ListedByFirst before choices outcome listing) {i : ι}
    (hi : i ∈ choices) (hmem : outcome i ∈ listing) (hleast : ∀ j, ¬ before j i) :
    listing.head? = some (outcome i) := by
  obtain ⟨firsts, rfl, hordered, hfirst⟩ := hlisted
  obtain ⟨j, hj, heq⟩ := List.mem_map.1 hmem
  obtain rfl : i = j := ((hfirst j hj).2 i hi heq.symm).resolve_right (hleast j)
  cases firsts with
  | nil => cases hj
  | cons first rest =>
    rcases List.mem_cons.1 hj with rfl | hrest
    · rfl
    · exact absurd ((List.pairwise_cons.1 hordered).1 i hrest) (hleast first)

/-- Outcomes that are told apart by their images are listed as the images are. -/
theorem map_iff {image : α → β} (himage : Function.Injective image) :
    ListedByFirst before choices (image ∘ outcome) (listing.map image) ↔
      ListedByFirst before choices outcome listing := by
  simp only [ListedByFirst, ← List.map_map, (List.map_injective_iff.2 himage).eq_iff,
    Function.comp_apply, himage.eq_iff]

/-- Choices can be given other names. -/
theorem comap (hlisted : ListedByFirst before choices outcome listing) {name : κ → ι}
    (hname : Function.Injective name) {names : Set κ}
    (hnames : ∀ i, i ∈ choices ↔ ∃ k ∈ names, name k = i) :
    ListedByFirst (fun a b => before (name a) (name b)) names (outcome ∘ name) listing := by
  obtain ⟨firsts, rfl, hordered, hfirst⟩ := hlisted
  obtain ⟨firsts, rfl⟩ : firsts ∈ Set.range (List.map name) := by
    rw [Set.range_list_map]
    intro i hi
    obtain ⟨k, -, hk⟩ := (hnames i).1 (hfirst i hi).1
    exact ⟨k, hk⟩
  refine ⟨firsts, List.map_map, List.pairwise_map.1 hordered, fun a ha => ?_⟩
  obtain ⟨hchoice, hleast⟩ := hfirst (name a) (List.mem_map_of_mem ha)
  constructor
  · obtain ⟨k, hk, heq⟩ := (hnames _).1 hchoice
    rwa [← hname heq]
  · intro b hb heq
    rcases hleast (name b) ((hnames _).2 ⟨b, hb, rfl⟩) heq with hsame | hbefore
    · exact Or.inl (hname hsame)
    · exact Or.inr hbefore

/-- When all outcomes are listed, the first choices are those that no other choice with
their outcome comes before. -/
theorem exists_firsts (hlisted : ListedByFirst before choices outcome listing)
    (hbefore : ∀ i j, before i j → ¬ before j i)
    (hcomplete : ∀ i ∈ choices, outcome i ∈ listing) :
    ∃ firsts : List ι, listing = firsts.map outcome ∧ firsts.Pairwise before ∧
      ∀ i, i ∈ firsts ↔
        i ∈ choices ∧ ∀ j ∈ choices, outcome j = outcome i → j = i ∨ before i j := by
  obtain ⟨firsts, rfl, hordered, hfirst⟩ := hlisted
  refine ⟨firsts, rfl, hordered, fun i => ⟨hfirst i, ?_⟩⟩
  rintro ⟨hi, hleast⟩
  obtain ⟨j, hj, heq⟩ := List.mem_map.1 (hcomplete i hi)
  obtain ⟨hchoice, hleastJ⟩ := hfirst j hj
  rcases hleast j hchoice heq with rfl | hij
  · exact hj
  · rcases hleastJ i hi heq.symm with rfl | hji
    · exact hj
    · exact absurd hji (hbefore i j hij)

/-- Listings of the same choices list images of each other if the outcomes are equal for
the same choices. -/
theorem eq_map {other : ι → β} {otherListing : List β}
    (hlisted : ListedByFirst before choices outcome listing)
    (hother : ListedByFirst before choices other otherListing)
    (hbefore : ∀ i j, before i j → ¬ before j i)
    (hcomplete : ∀ i ∈ choices, outcome i ∈ listing)
    (hotherComplete : ∀ i ∈ choices, other i ∈ otherListing) {image : α → β}
    (himage : ∀ i, other i = image (outcome i))
    (hinjective : ∀ i j, other i = other j → outcome i = outcome j) :
    otherListing = listing.map image := by
  obtain ⟨firsts, rfl, hordered, hfirsts⟩ := hlisted.exists_firsts hbefore hcomplete
  obtain ⟨others, rfl, hotherOrdered, hothers⟩ := hother.exists_firsts hbefore hotherComplete
  have hirrefl : Std.Irrefl before := ⟨fun i hi => hbefore i i hi hi⟩
  have hantisymm : Std.Antisymm before := ⟨fun i j hij hji => absurd hji (hbefore i j hij)⟩
  have hsame : ∀ i j, other i = other j ↔ outcome i = outcome j :=
    fun i j => ⟨hinjective i j, fun heq => by rw [himage, himage, heq]⟩
  have heq : others = firsts := by
    refine hotherOrdered.eq_of_mem_iff hordered fun i => ?_
    rw [hothers, hfirsts]
    simp only [hsame]
  rw [heq, List.map_map]
  exact List.map_congr_left fun i _ => himage i

end ListedByFirst

section Distinct

variable {ι α : Type} [DecidableEq α]

/-- Without repetitions, values are listed by the first places where they stand. -/
theorem listedByFirst_eraseDups {before : ι → ι → Prop} (f : ι → α) {l : List ι}
    (hl : l.Pairwise before) :
    ListedByFirst before {i | i ∈ l} f (l.map f).eraseDups := by
  induction hn : l.length using Nat.strong_induction_on generalizing l with
  | _ n ih =>
    cases l with
    | nil => exact ⟨[], rfl, List.Pairwise.nil, fun i hi => by cases hi⟩
    | cons a rest =>
      rw [List.pairwise_cons] at hl
      let others := rest.filter fun i => !f i == f a
      have hothers : others.Sublist rest := List.filter_sublist
      have hlength : others.length < n := by
        rw [← hn, List.length_cons]
        exact Nat.lt_succ_of_le hothers.length_le
      have hdistinct : ∀ i, i ∈ others ↔ i ∈ rest ∧ f i ≠ f a := by
        simp [others]
      have herase : ((a :: rest).map f).eraseDups = f a :: (others.map f).eraseDups := by
        rw [List.map_cons, List.eraseDups_cons, List.filter_map]
        rfl
      obtain ⟨firsts, hfirsts, hordered, hfirst⟩ :=
        ih _ hlength (hl.2.sublist hothers) rfl
      refine ⟨a :: firsts, ?_, List.pairwise_cons.2 ⟨fun i hi => ?_, hordered⟩, ?_⟩
      · rw [herase, hfirsts, List.map_cons]
      · exact hl.1 i (hothers.subset (hfirst i hi).1)
      · intro i hi
        rcases List.mem_cons.1 hi with rfl | hi
        · refine ⟨List.mem_cons_self, fun j hj _ => ?_⟩
          exact (List.mem_cons.1 hj).imp_right (hl.1 j)
        · obtain ⟨hmem, hleast⟩ := hfirst i hi
          obtain ⟨hrest, hne⟩ := (hdistinct i).1 hmem
          refine ⟨List.mem_cons_of_mem a hrest, fun j hj heq => ?_⟩
          rcases List.mem_cons.1 hj with rfl | hj
          · exact absurd heq.symm hne
          · exact hleast j ((hdistinct j).2 ⟨hj, heq ▸ hne⟩) heq

theorem nodup_eraseDups (values : List α) : values.eraseDups.Nodup := by
  have hlisted := listedByFirst_eraseDups values.get (List.pairwise_lt_finRange _)
  rw [← List.ofFn_eq_map, List.ofFn_get] at hlisted
  exact hlisted.nodup fun _ _ => lt_asymm

/-! ## Order -/

/-- At the first place where an arrangement differs from a list, it has a later member of
the list.  So no relation that the members do not have to later ones tells the two apart. -/
theorem not_lex_of_perm {r : ι → ι → Prop} (hirrefl : ∀ a, ¬ r a a) {l p : List ι}
    (hl : l.Pairwise fun a b => ¬ r a b) (hperm : p.Perm l) : ¬ List.Lex r l p := by
  induction l generalizing p with
  | nil =>
    obtain rfl := hperm.eq_nil
    exact List.not_lex_nil
  | cons a rest ih =>
    rw [List.pairwise_cons] at hl
    intro hlex
    cases hlex with
    | rel hab =>
      rcases List.mem_cons.1 (hperm.subset List.mem_cons_self) with rfl | hb
      · exact hirrefl _ hab
      · exact hl.1 _ hb hab
    | cons htail => exact ih hl.2 hperm.cons_inv htail

/-- Of two lists of one length, the one comes before the other exactly if the other comes
before it in the reversed order. -/
theorem lex_swap_of_length_eq {r : ι → ι → Prop} {l p : List ι} (hlength : p.length = l.length)
    (h : List.Lex r p l) : List.Lex (fun a b => r b a) l p := by
  induction h with
  | nil => cases hlength
  | rel hab => exact .rel hab
  | cons _ ih => exact .cons (ih (Nat.succ.inj hlength))

section Order

variable [LinearOrder ι]

/-- The first place of a value is the place where the value is taken from a list. -/
theorem erase_map_of_first (f : ι → α) {l : List ι} {i : ι} (hl : l.Pairwise (· < ·))
    (hi : i ∈ l) (hfirst : ∀ j ∈ l, f j = f i → j = i ∨ i < j) :
    (l.map f).erase (f i) = (l.erase i).map f := by
  induction l with
  | nil => cases hi
  | cons a rest ih =>
    rw [List.pairwise_cons] at hl
    by_cases ha : a = i
    · rw [ha, List.map_cons, List.erase_cons_head, List.erase_cons_head]
    · have hrest : i ∈ rest := List.mem_of_ne_of_mem (Ne.symm ha) hi
      have hvalue : f a ≠ f i := by
        intro heq
        rcases hfirst a List.mem_cons_self heq with hsame | hlt
        · exact ha hsame
        · exact lt_asymm hlt (hl.1 i hrest)
      rw [List.map_cons, List.erase_cons_tail (by simpa using hvalue),
        List.erase_cons_tail (by simpa using ha), List.map_cons,
        ih hl.2 hrest fun j hj => hfirst j (List.mem_cons_of_mem a hj)]

/-- No arrangement of an ascending list comes before the list. -/
theorem not_lt_of_perm {l p : List ι} (hl : l.Pairwise (· ≤ ·)) (hperm : p.Perm l) :
    ¬ p < l := by
  intro hlt
  have hlex : List.Lex (fun a b => b < a) l p := lex_swap_of_length_eq hperm.length_eq hlt
  exact not_lex_of_perm (r := fun a b => b < a) lt_irrefl (hl.imp not_lt_of_ge) hperm hlex

/-- No arrangement of a descending list comes after the list. -/
theorem not_gt_of_perm {l m : List ι} (hl : l.Pairwise (· ≥ ·)) (hperm : m.Perm l) :
    ¬ l < m :=
  not_lex_of_perm lt_irrefl (hl.imp not_lt_of_ge) hperm

/-- The arrangements of the values at some places are listed by the first arrangements of
the places. -/
theorem listedByFirst_arrangementsOf (f : ι → α) {count : ℕ} {l : List ι}
    (hl : l.Pairwise (· < ·)) (hcount : l.length = count) :
    ListedByFirst (· < ·) {p | p.Perm l} (List.map f) (arrangementsOf count (l.map f)) := by
  induction count generalizing l with
  | zero =>
    obtain rfl := List.eq_nil_of_length_eq_zero hcount
    refine ⟨[[]], rfl, List.pairwise_singleton _ _, fun p hp => ?_⟩
    obtain rfl := List.mem_singleton.1 hp
    exact ⟨List.Perm.refl [], fun q hq _ => Or.inl hq.eq_nil⟩
  | succ count ih =>
    obtain ⟨heads, hheads, hordered, hhead⟩ := listedByFirst_eraseDups f hl
    have hrest : ∀ i ∈ heads, ∃ tails : List (List ι),
        arrangementsOf count ((l.map f).erase (f i)) = tails.map (List.map f) ∧
        tails.Pairwise (· < ·) ∧ ∀ p ∈ tails, p.Perm (l.erase i) ∧
          ∀ q, q.Perm (l.erase i) → q.map f = p.map f → q = p ∨ p < q := by
      intro i hi
      rw [erase_map_of_first f hl (hhead i hi).1 (hhead i hi).2]
      apply ih (hl.sublist List.erase_sublist)
      rw [List.length_erase_of_mem (hhead i hi).1, hcount, Nat.add_sub_cancel]
    choose! tails htails hascending htail using hrest
    refine ⟨heads.flatMap fun i => (tails i).map (i :: ·), ?_, ?_, ?_⟩
    · rw [arrangementsOf, hheads, List.flatMap_map, List.map_flatMap]
      refine List.flatMap_congr fun i hi => ?_
      rw [htails i hi, List.map_map, List.map_map]
      rfl
    · rw [List.pairwise_flatMap]
      constructor
      · intro i hi
        rw [List.pairwise_map]
        exact (hascending i hi).imp fun hlt => List.cons_lt_cons_iff.2 (Or.inr ⟨rfl, hlt⟩)
      · refine hordered.imp fun {i j} hij p hp q hq => ?_
        obtain ⟨_, -, rfl⟩ := List.mem_map.1 hp
        obtain ⟨_, -, rfl⟩ := List.mem_map.1 hq
        exact List.cons_lt_cons_iff.2 (Or.inl hij)
    · intro p hp
      obtain ⟨i, hi, hp⟩ := List.mem_flatMap.1 hp
      obtain ⟨tail, hmem, rfl⟩ := List.mem_map.1 hp
      obtain ⟨hperm, hleast⟩ := htail i hi tail hmem
      refine ⟨(hperm.cons i).trans (List.perm_cons_erase (hhead i hi).1).symm, ?_⟩
      intro q hq heq
      -- The head decides, and after equal heads the tails do.
      cases q with
      | nil => cases heq
      | cons j rest =>
        obtain ⟨hj, hrest⟩ := List.cons_perm_iff_perm_erase.1 hq
        obtain ⟨hvalue, hvalues⟩ := List.cons_eq_cons.1 heq
        rcases (hhead i hi).2 j hj hvalue with rfl | hlt
        · rcases hleast rest hrest hvalues with rfl | hlt
          · exact Or.inl rfl
          · exact Or.inr (List.cons_lt_cons_iff.2 (Or.inr ⟨rfl, hlt⟩))
        · exact Or.inr (List.cons_lt_cons_iff.2 (Or.inl hlt))

end Order

-- The values come in the order of their first places, not in their own.
example : arrangements [2, 1, 2] = [[2, 1, 2], [2, 2, 1], [1, 2, 2]] := by decide

/-! ## Number -/

open scoped Nat

/-- Taking a value from a list takes a factor from the factorial of its multiplicity. -/
theorem prod_factorial_count_erase {values : List α} {v : α} (hv : v ∈ values)
    {kinds : Finset α} (hkind : v ∈ kinds) :
    ∏ u ∈ kinds, (values.count u)! =
      values.count v * ∏ u ∈ kinds, ((values.erase v).count u)! := by
  have hpos : values.count v ≠ 0 := (List.count_pos_iff.2 hv).ne'
  have hothers : ∏ u ∈ kinds.erase v, ((values.erase v).count u)! =
      ∏ u ∈ kinds.erase v, (values.count u)! := by
    refine Finset.prod_congr rfl fun u hu => ?_
    rw [List.count_erase_of_ne (Finset.ne_of_mem_erase hu)]
  rw [← Finset.mul_prod_erase kinds _ hkind, ← Finset.mul_prod_erase kinds _ hkind, hothers,
    List.count_erase_self, ← mul_assoc, Nat.mul_factorial_pred hpos]

/-- The arrangements of a list are as many as the multinomial coefficient of its
multiplicities. -/
theorem length_arrangementsOf_mul {count : ℕ} {values : List α}
    (hcount : values.length = count) {kinds : Finset α} (hkinds : ∀ v ∈ values, v ∈ kinds) :
    (arrangementsOf count values).length * ∏ v ∈ kinds, (values.count v)! = count ! := by
  induction count generalizing values with
  | zero =>
    obtain rfl := List.eq_nil_of_length_eq_zero hcount
    simp [arrangementsOf]
  | succ count ih =>
    have hsum : (arrangementsOf (count + 1) values).length =
        ∑ v ∈ values.toFinset, (arrangementsOf count (values.erase v)).length := by
      have hkinds : values.eraseDups.toFinset = values.toFinset := by
        ext v
        rw [List.mem_toFinset, List.mem_toFinset, List.mem_eraseDups]
      rw [arrangementsOf, List.length_flatMap, ← hkinds,
        List.sum_toFinset _ (nodup_eraseDups values)]
      simp only [List.length_map]
    have hterm : ∀ v ∈ values.toFinset, (arrangementsOf count (values.erase v)).length *
        ∏ u ∈ kinds, (values.count u)! = values.count v * count ! := by
      intro v hv
      rw [List.mem_toFinset] at hv
      have hrest : (values.erase v).length = count := by
        rw [List.length_erase_of_mem hv, hcount, Nat.add_sub_cancel]
      rw [prod_factorial_count_erase hv (hkinds v hv), mul_left_comm,
        ih hrest fun u hu => hkinds u (List.mem_of_mem_erase hu)]
    calc
      (arrangementsOf (count + 1) values).length * ∏ v ∈ kinds, (values.count v)! =
          ∑ v ∈ values.toFinset, values.count v * count ! := by
        rw [hsum, Finset.sum_mul, Finset.sum_congr rfl hterm]
      _ = (count + 1) * count ! := by
        rw [← Finset.sum_mul, List.sum_toFinset_count_eq_length, hcount]
      _ = (count + 1)! := (Nat.factorial_succ count).symm

end Distinct

end Cellular
