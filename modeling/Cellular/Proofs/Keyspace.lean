import Mathlib.Data.Nat.Log
import Mathlib.Data.Set.Function
import Cellular.Proofs.Writes

/-!
# Keys and configurations correspond

A key has nine slots and no other bits, so the configurations whose states fit their
slots and the numbers below the ninth power of the slot size correspond to each other.
For the numbers of states that a rule may have, a key has at most 81 bits; computed in
words of 128 bits it is the same number.
-/

namespace Cellular

namespace Packing

variable {p : Packing} {c : Configuration} {key other : ℕ}

/-! ## The bits of a key -/

theorem slot_lt {slot : ℕ} (hslot : slot ∈ slots) : slot < 9 := by
  revert slot
  decide

theorem mem_slots {slot : ℕ} (hslot : slot < 9) : slot ∈ slots := by
  revert slot
  decide

/-- What is moved to a slot stays below the end of the last slot. -/
theorem shiftLeft_slot_lt {width extent s slot : ℕ} (hs : s < 2 ^ extent) (hslot : slot < 9) :
    s <<< (slot * width) < 2 ^ (extent + 8 * width) := by
  rw [Nat.shiftLeft_eq, Nat.pow_add]
  apply Nat.mul_lt_mul_of_lt_of_le hs
  · apply Nat.pow_le_pow_right (by decide)
    exact Nat.mul_le_mul_right width (Nat.le_of_lt_succ hslot)
  · exact Nat.two_pow_pos _

private theorem foldl_slots_lt {width bound : ℕ} {pairs : List (ℕ × ℕ)}
    (hpairs : ∀ pair ∈ pairs, pair.1 <<< (pair.2 * width) < 2 ^ bound)
    (hkey : key < 2 ^ bound) :
    pairs.foldl (fun key (s, slot) => key ||| s <<< (slot * width)) key < 2 ^ bound := by
  induction pairs generalizing key with
  | nil => exact hkey
  | cons pair rest ih =>
    rw [List.forall_mem_cons] at hpairs
    exact ih hpairs.2 (Nat.or_lt_two_pow hkey hpairs.1)

theorem pack_lt (hfit : p.Fits c) : p.pack c < 2 ^ (9 * p.width) := by
  apply foldl_slots_lt
  · intro pair hpair
    obtain ⟨hs, hslot⟩ := List.of_mem_zip hpair
    have hextent : 9 * p.width = p.width + 8 * p.width := by omega
    rw [hextent]
    exact shiftLeft_slot_lt (hfit _ hs) (slot_lt hslot)
  · exact Nat.two_pow_pos _

theorem states_unpack (p : Packing) (key : ℕ) :
    (p.unpack key).states = slots.map (p.slotState key) :=
  rfl

/-- What is read from a slot fits it. -/
theorem fits_unpack (p : Packing) (key : ℕ) : p.Fits (p.unpack key) := by
  intro s hs
  rw [states_unpack, List.mem_map] at hs
  obtain ⟨slot, -, rfl⟩ := hs
  rw [slotState_eq]
  exact Nat.mod_lt _ (Nat.two_pow_pos _)

/-- Keys without bits beyond the slots are told apart by the states in their slots. -/
theorem eq_of_unpack_eq (hkey : key < 2 ^ (9 * p.width)) (hother : other < 2 ^ (9 * p.width))
    (h : p.unpack key = p.unpack other) : key = other := by
  have hslots : ∀ slot ∈ slots, p.slotState key slot = p.slotState other slot := by
    rw [← List.map_inj_left, ← states_unpack, ← states_unpack, h]
  apply Nat.eq_of_testBit_eq
  intro i
  rcases Nat.lt_or_ge i (9 * p.width) with hi | hi
  · -- Bit `i` is a bit of the state in slot `i / width`.
    have hpos : 0 < p.width := Nat.succ_pos _
    have hbit : i % p.width < p.width := Nat.mod_lt i hpos
    have hslot := hslots (i / p.width)
      (mem_slots ((Nat.div_lt_iff_lt_mul hpos).2 hi))
    have hplace : i / p.width * p.width + i % p.width = i := Nat.div_add_mod' i p.width
    have hsame := congrArg (fun s => s.testBit (i % p.width)) hslot
    simpa only [slotState_eq, Nat.testBit_mod_two_pow, Nat.testBit_shiftRight, hbit,
      decide_true, Bool.true_and, hplace] using hsame
  · have hpow : 2 ^ (9 * p.width) ≤ 2 ^ i := Nat.pow_le_pow_right (by decide) hi
    rw [Nat.testBit_lt_two_pow (Nat.lt_of_lt_of_le hkey hpow),
      Nat.testBit_lt_two_pow (Nat.lt_of_lt_of_le hother hpow)]

/-- A key is made again from what is read from it. -/
theorem pack_unpack (hkey : key < 2 ^ (9 * p.width)) : p.pack (p.unpack key) = key := by
  have hfit := p.fits_unpack key
  exact eq_of_unpack_eq (pack_lt hfit) hkey (unpack_pack hfit)

/-! ## The width of a slot -/

/-- A slot has one bit more than the states need. -/
theorem width_eq_clog (h : 2 ≤ p.stateCount) : p.width = Nat.clog 2 p.stateCount + 1 := by
  have hmax : max p.stateCount 2 - 1 = p.stateCount - 1 := by omega
  have hne : p.stateCount - 1 ≠ 0 := by omega
  have hclog : Nat.clog 2 p.stateCount = Nat.log2 (p.stateCount - 1) + 1 := by
    apply le_antisymm
    · rw [Nat.clog_le_iff_le_pow (by decide)]
      have hlt : p.stateCount - 1 < 2 ^ (Nat.log2 (p.stateCount - 1) + 1) := Nat.lt_log2_self
      omega
    · rw [Nat.add_one_le_iff, Nat.lt_clog_iff_pow_lt (by decide)]
      have hle : 2 ^ Nat.log2 (p.stateCount - 1) ≤ p.stateCount - 1 := Nat.log2_self_le hne
      omega
  rw [width, hmax, hclog]

theorem width_le (h : p.stateCount ≤ 256) : p.width ≤ 9 := by
  have hne : max p.stateCount 2 - 1 ≠ 0 := by omega
  have hlog : Nat.log2 (max p.stateCount 2 - 1) < 8 := by
    rw [Nat.log2_lt hne]
    omega
  rw [width]
  omega

/-! ## Keys in machine words -/

/-- The key of a configuration as it is computed in words of 128 bits, where a shift
loses what it moves out of the word. -/
def packWord (p : Packing) (c : Configuration) : BitVec 128 :=
  (c.states.zip slots).foldl
    (fun key (s, slot) => key ||| BitVec.ofNat 128 s <<< (slot * p.width)) 0

/-- The state in a slot of a word: the slot is moved to the end and cut out by a mask, and
what is left is put in a word of 32 bits. -/
def slotWord (p : Packing) (key : BitVec 128) (slot : ℕ) : BitVec 32 :=
  ((key >>> (slot * p.width)) &&& ((1 <<< p.width) - 1)).setWidth 32

private theorem toNat_foldl_slots {width : ℕ} {pairs : List (ℕ × ℕ)}
    (hpairs : ∀ pair ∈ pairs, pair.1 < 2 ^ 128 ∧ pair.1 <<< (pair.2 * width) < 2 ^ 128)
    (key : BitVec 128) :
    (pairs.foldl (fun key (s, slot) => key ||| BitVec.ofNat 128 s <<< (slot * width))
        key).toNat =
      pairs.foldl (fun key (s, slot) => key ||| s <<< (slot * width)) key.toNat := by
  induction pairs generalizing key with
  | nil => rfl
  | cons pair rest ih =>
    rw [List.forall_mem_cons] at hpairs
    obtain ⟨⟨hs, hshift⟩, hrest⟩ := hpairs
    rw [List.foldl_cons, List.foldl_cons, ih hrest, BitVec.toNat_or, BitVec.toNat_shiftLeft,
      BitVec.toNat_ofNat, Nat.mod_eq_of_lt hs, Nat.mod_eq_of_lt hshift]

/-- No shift loses a bit of a state of 32 bits. -/
theorem toNat_packWord (hwidth : p.width ≤ 9) (hc : ∀ s ∈ c.states, s < 2 ^ 32) :
    (p.packWord c).toNat = p.pack c := by
  apply toNat_foldl_slots
  intro pair hpair
  obtain ⟨hs, hslot⟩ := List.of_mem_zip hpair
  have hpow : 2 ^ (32 + 8 * p.width) ≤ 2 ^ 128 := Nat.pow_le_pow_right (by decide) (by omega)
  constructor
  · exact Nat.lt_trans (hc _ hs) (by decide)
  · exact Nat.lt_of_lt_of_le (shiftLeft_slot_lt (hc _ hs) (slot_lt hslot)) hpow

/-- The mask of a slot fits the word, and what it leaves fits a state. -/
theorem toNat_slotWord (hwidth : p.width ≤ 9) (key : BitVec 128) (slot : ℕ) :
    (p.slotWord key slot).toNat = p.slotState key.toNat slot := by
  have hmask : ∀ width ≤ 9, ((1 <<< width : BitVec 128) - 1).toNat = 2 ^ width - 1 := by
    decide
  have hpow : 2 ^ p.width ≤ 2 ^ 32 := Nat.pow_le_pow_right (by decide) (by omega)
  have hlt : (key.toNat >>> (slot * p.width)) % 2 ^ p.width < 2 ^ 32 :=
    Nat.lt_of_lt_of_le (Nat.mod_lt _ (Nat.two_pow_pos _)) hpow
  rw [slotWord, BitVec.toNat_setWidth, BitVec.toNat_and, BitVec.toNat_ushiftRight,
    hmask p.width hwidth, Nat.and_two_pow_sub_one_eq_mod, Nat.mod_eq_of_lt hlt, slotState_eq]

/-- **Configurations and keys correspond.**  A slot has one bit more than the states
need.  Packing takes the configurations whose states fit their slots, among them all
those of the rule's states, one to one to the numbers below the ninth power of the slot
size, and unpacking takes these back.  Keys have at most 81 bits; the shifts stay below
128, and computed in words of 128 bits, keys and states come out the same. -/
theorem pack_is_bijection (hleast : 2 ≤ p.stateCount) (hgreatest : p.stateCount ≤ 256) :
    p.width = Nat.clog 2 p.stateCount + 1 ∧
    (∀ s < p.stateCount, s < 2 ^ p.width) ∧
    (∀ c : Configuration, (∀ s ∈ c.states, s < 2 ^ p.width) →
      p.pack c < 2 ^ (9 * p.width) ∧ p.unpack (p.pack c) = c) ∧
    (∀ key < 2 ^ (9 * p.width),
      (∀ s ∈ (p.unpack key).states, s < 2 ^ p.width) ∧ p.pack (p.unpack key) = key) ∧
    Set.BijOn p.pack {c | ∀ s ∈ c.states, s < 2 ^ p.width} {key | key < 2 ^ (9 * p.width)} ∧
    2 ^ (9 * p.width) ≤ 2 ^ 81 ∧
    (∀ slot ∈ slots, slot * p.width < 128) ∧
    (∀ c : Configuration, (∀ s ∈ c.states, s < 2 ^ 32) →
      (p.packWord c).toNat = p.pack c) ∧
    ∀ (key : BitVec 128) (slot : ℕ), (p.slotWord key slot).toNat = p.slotState key.toNat slot := by
  have hwidth := width_le hgreatest
  refine ⟨width_eq_clog hleast, fun s hs => ?_, fun c hfit => ⟨pack_lt hfit, unpack_pack hfit⟩,
    fun key hkey => ⟨p.fits_unpack key, pack_unpack hkey⟩, ⟨?_, ?_, ?_⟩, ?_, ?_,
    fun c => toNat_packWord hwidth, fun key slot => toNat_slotWord hwidth key slot⟩
  · exact Nat.lt_of_lt_of_le hs p.stateCount_le_two_pow_width
  · exact fun c hfit => pack_lt hfit
  · exact fun c hc d hd heq => (pack_inj hc hd).1 heq
  · exact fun key hkey => ⟨p.unpack key, p.fits_unpack key, pack_unpack hkey⟩
  · exact Nat.pow_le_pow_right (by decide) (by omega)
  · intro slot hslot
    calc
      slot * p.width ≤ 8 * 9 := Nat.mul_le_mul (Nat.le_of_lt_succ (slot_lt hslot)) hwidth
      _ < 128 := by decide

/-- With one state more than a power of two, a slot of four bits has room for states up
to fifteen. -/
theorem quinary_correspond :
    2 ≤ (⟨5⟩ : Packing).stateCount ∧ (⟨5⟩ : Packing).stateCount ≤ 256 ∧
      (⟨5⟩ : Packing).width = 4 ∧
      (⟨5⟩ : Packing).unpack ((⟨5⟩ : Packing).pack ⟨4, ⟨[15, 0, 1, 2, 3, 4, 5, 15], rfl⟩⟩) =
        ⟨4, ⟨[15, 0, 1, 2, 3, 4, 5, 15], rfl⟩⟩ ∧
      (⟨5⟩ : Packing).pack ((⟨5⟩ : Packing).unpack 68719476735) = 68719476735 := by
  obtain ⟨-, -, hconfigurations, hkeys, -⟩ :=
    @pack_is_bijection ⟨5⟩ (by decide) (by decide)
  exact ⟨by decide, by decide, by decide, (hconfigurations _ (by decide)).2,
    (hkeys _ (by decide)).2⟩

end Packing

end Cellular
