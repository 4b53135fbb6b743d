import Mathlib.Algebra.Group.Nat.Defs
import Mathlib.Data.List.Nodup
import Cellular.Table.Packing

/-!
# Packed configurations can be read back

The slots of a key do not overlap, whatever their width.  A configuration whose
states fit their slots is therefore recovered from its key, and two such
configurations with one key are equal.
-/

namespace Cellular

namespace Packing

variable {p : Packing}

private theorem testBit_shiftLeft_slot {width s slot i : ℕ}
    (hs : s < 2 ^ width) {target j : ℕ} (hj : j < width)
    (hi : i = target * width + j) :
    (s <<< (slot * width)).testBit i = (decide (slot = target) && s.testBit j) := by
  subst hi
  rw [Nat.testBit_shiftLeft]
  rcases Nat.lt_trichotomy slot target with hlt | heq | hgt
  · have hstep : (slot + 1) * width ≤ target * width :=
      Nat.mul_le_mul_right width hlt
    have hfar : s.testBit (target * width + j - slot * width) = false := by
      apply Nat.testBit_lt_two_pow
      refine Nat.lt_of_lt_of_le hs (Nat.pow_le_pow_right (by decide) ?_)
      rw [Nat.add_mul] at hstep
      omega
    simp [hfar, Nat.ne_of_lt hlt]
  · subst heq
    simp
  · have hstep : (target + 1) * width ≤ slot * width :=
      Nat.mul_le_mul_right width hgt
    have hshort : ¬ slot * width ≤ target * width + j := by
      rw [Nat.add_mul] at hstep
      omega
    simp [hshort, Nat.ne_of_gt hgt]

/-- A bit of a slot of a key is set where it is set in a state that has this
slot. -/
private theorem testBit_foldl_slots {width target j : ℕ} (hj : j < width)
    {pairs : List (ℕ × ℕ)} (hpairs : ∀ pair ∈ pairs, pair.1 < 2 ^ width)
    (key : ℕ) :
    (pairs.foldl (fun key (s, slot) => key ||| s <<< (slot * width))
        key).testBit (target * width + j) =
      (key.testBit (target * width + j) ||
        pairs.any fun pair => decide (pair.2 = target) && pair.1.testBit j) := by
  induction pairs generalizing key with
  | nil => simp
  | cons pair rest ih =>
    have hhead := hpairs pair List.mem_cons_self
    rw [List.foldl_cons, ih fun q hq => hpairs q (List.mem_cons_of_mem _ hq),
      Nat.testBit_or, testBit_shiftLeft_slot hhead hj rfl, List.any_cons,
      Bool.or_assoc]

theorem slotState_eq (key slot : ℕ) :
    p.slotState key slot = (key >>> (slot * p.width)) % 2 ^ p.width := rfl

/-- The state in a slot of a key is the one that was packed there, if it is
the only one with this slot. -/
theorem slotState_packStates {states : List State}
    (hstates : ∀ s ∈ states, s < 2 ^ p.width) {s slot : ℕ}
    (hmem : (s, slot) ∈ states.zip slots)
    (honly : ∀ t, (t, slot) ∈ states.zip slots → t = s) :
    p.slotState (p.packStates states) slot = s := by
  have hfit : ∀ pair ∈ states.zip slots, pair.1 < 2 ^ p.width :=
    fun pair hpair => hstates _ (List.of_mem_zip hpair).1
  apply Nat.eq_of_testBit_eq
  intro j
  rw [slotState_eq, Nat.testBit_mod_two_pow, Nat.testBit_shiftRight]
  by_cases hj : j < p.width
  · have hany : ((states.zip slots).any fun pair =>
        decide (pair.2 = slot) && pair.1.testBit j) = s.testBit j := by
      rw [Bool.eq_iff_iff, List.any_eq_true]
      constructor
      · rintro ⟨⟨t, other⟩, hpair, hbit⟩
        simp only [Bool.and_eq_true, decide_eq_true_eq] at hbit
        obtain ⟨rfl, hbit⟩ := hbit
        exact honly t hpair ▸ hbit
      · intro hbit
        exact ⟨(s, slot), hmem, by simp [hbit]⟩
    rw [packStates, testBit_foldl_slots hj hfit, hany]
    simp [hj]
  · have hbound : s < 2 ^ p.width := hfit _ hmem
    have hlow : s.testBit j = false :=
      Nat.testBit_lt_two_pow (Nat.lt_of_lt_of_le hbound
        (Nat.pow_le_pow_right (by decide) (Nat.le_of_not_lt hj)))
    simp [hj, hlow]

/-- Nine states that fit their slots are found in them again. -/
theorem map_slotState_packStates {states : List State}
    (hlength : states.length = 9) (hfit : ∀ s ∈ states, s < 2 ^ p.width) :
    slots.map (p.slotState (p.packStates states)) = states := by
  apply List.ext_getElem
  · rw [List.length_map, hlength]
    rfl
  · intro i hi hi'
    have hslot : i < slots.length := by simpa using hi
    rw [List.getElem_map]
    apply slotState_packStates hfit
    · rw [List.mem_iff_getElem]
      have hzip : i < (states.zip slots).length := by
        rw [List.length_zip]
        exact Nat.lt_min.2 ⟨hi', hslot⟩
      exact ⟨i, hzip, List.getElem_zip⟩
    · intro t ht
      obtain ⟨j, hj, hpair⟩ := List.mem_iff_getElem.1 ht
      rw [List.getElem_zip, Prod.mk.injEq] at hpair
      have hnodup : slots.Nodup := by decide
      have hij : j = i := (List.Nodup.getElem_inj_iff hnodup).1 hpair.2
      subst hij
      exact hpair.1.symm

/-- A configuration whose states fit their slots can be read back from its
key. -/
theorem unpack_pack {c : Configuration}
    (hfit : ∀ s ∈ c.states, s < 2 ^ p.width) : p.unpack (p.pack c) = c := by
  have hlength : c.states.length = 9 := by
    rw [Configuration.states, List.length_cons, c.ring.length_cells]
  have hslots := map_slotState_packStates hlength hfit
  rw [slots, List.map_cons, Configuration.states, List.cons.injEq] at hslots
  obtain ⟨hcenter, hring⟩ := hslots
  rcases c with ⟨center, cells, hcells⟩
  simp only [unpack, pack, Configuration.mk.injEq, Ring.mk.injEq]
  exact ⟨hcenter, hring⟩

/-- Configurations whose states fit their slots are told apart by their
keys. -/
theorem pack_inj {c d : Configuration}
    (hc : ∀ s ∈ c.states, s < 2 ^ p.width)
    (hd : ∀ s ∈ d.states, s < 2 ^ p.width) : p.pack c = p.pack d ↔ c = d := by
  constructor
  · intro h
    rw [← unpack_pack hc, ← unpack_pack hd, h]
  · intro h
    rw [h]

/-- There is room for every state in a slot. -/
theorem stateCount_le_two_pow_width (p : Packing) :
    p.stateCount ≤ 2 ^ p.width := by
  have hlog : max p.stateCount 2 - 1 <
      2 ^ (Nat.log2 (max p.stateCount 2 - 1) + 1) :=
    Nat.lt_log2_self
  have hstep : 2 ^ (Nat.log2 (max p.stateCount 2 - 1) + 1) ≤ 2 ^ p.width :=
    Nat.pow_le_pow_right (by decide) (Nat.le_succ _)
  omega

end Packing

end Cellular
