import Cellular.Proofs.Dispatch
import Cellular.Proofs.Gaps

/-!
# Fingerprints of tables

The prime of the hash is odd and so has an inverse among words: no step of the hash
forgets what was fed before.  States have one byte that is not zero, so two tables that
map the same keys and differ in the state of one of them differ in one byte that is fed,
and keep different hashes whatever follows.  Tables with the same entries are fed alike,
however they were built.
-/

namespace Cellular

namespace Fingerprint

variable {hash other : UInt64} {byte : ℕ} {s t : State}

/-! ## Steps of the hash -/

/-- The prime can be undone. -/
theorem exists_prime_mul_eq_one : ∃ inverse, prime * inverse = 1 :=
  ⟨0xce965057aff6957b, by decide⟩

theorem mul_prime_inj : hash * prime = other * prime ↔ hash = other := by
  constructor
  · intro h
    obtain ⟨inverse, hinverse⟩ := exists_prime_mul_eq_one
    calc
      hash = hash * prime * inverse := by rw [UInt64.mul_assoc, hinverse, UInt64.mul_one]
      _ = other * prime * inverse := by rw [h]
      _ = other := by rw [UInt64.mul_assoc, hinverse, UInt64.mul_one]
  · rintro rfl
    rfl

/-- Feeding a byte keeps hashes apart. -/
theorem addByte_inj : addByte hash byte = addByte other byte ↔ hash = other := by
  rw [addByte, addByte, mul_prime_inj, UInt64.xor_left_inj]

/-- Different bytes lead to different hashes. -/
theorem addByte_ne {byte changed : ℕ} (hbyte : byte < 256) (hchanged : changed < 256)
    (hne : byte ≠ changed) : addByte hash byte ≠ addByte hash changed := by
  intro heq
  rw [addByte, addByte, mul_prime_inj, UInt64.xor_right_inj] at heq
  have hsize : 256 ≤ UInt64.size := by decide
  have hnat := congrArg UInt64.toNat heq
  rw [UInt64.toNat_ofNat_of_lt' (Nat.lt_of_lt_of_le hbyte hsize),
    UInt64.toNat_ofNat_of_lt' (Nat.lt_of_lt_of_le hchanged hsize)] at hnat
  exact hne hnat

theorem foldl_addByte_inj {fed : List ℕ} :
    fed.foldl addByte hash = fed.foldl addByte other ↔ hash = other := by
  induction fed generalizing hash other with
  | nil => rfl
  | cons byte rest ih => rw [List.foldl_cons, List.foldl_cons, ih, addByte_inj]

theorem addEntry_inj {entry : ℕ × State} :
    addEntry hash entry = addEntry other entry ↔ hash = other :=
  foldl_addByte_inj

theorem foldl_addEntry_inj {entries : List (ℕ × State)} :
    entries.foldl addEntry hash = entries.foldl addEntry other ↔ hash = other := by
  induction entries generalizing hash other with
  | nil => rfl
  | cons entry rest ih => rw [List.foldl_cons, List.foldl_cons, ih, addEntry_inj]

/-- Of the four bytes of a state, all but the first are zero. -/
theorem bytes_state (hs : s < 256) : bytes 4 s = [s, 0, 0, 0] := by
  have hfour : bytes 4 s = s % 256 :: bytes 3 (s / 256) := rfl
  rw [hfour, Nat.mod_eq_of_lt hs, Nat.div_eq_of_lt hs]
  rfl

/-- An entry is fed as its key, its state and what is always the same. -/
theorem addEntry_eq {key : ℕ} (hs : s < 256) :
    addEntry hash (key, s) =
      [0, 0, 0].foldl addByte (addByte ((bytes 16 key).foldl addByte hash) s) := by
  rw [addEntry, bytes_state hs, List.foldl_append, List.foldl_cons]

/-- A changed state of an entry changes the hash. -/
theorem addEntry_ne {key : ℕ} (hs : s < 256) (ht : t < 256) (hne : s ≠ t) :
    addEntry hash (key, s) ≠ addEntry hash (key, t) := by
  rw [addEntry_eq hs, addEntry_eq ht, Ne, foldl_addByte_inj]
  exact addByte_ne hs ht hne

/-- Lists of entries that differ in one state have different hashes. -/
theorem ofEntries_ne {before after : List (ℕ × State)} {key : ℕ} (hs : s < 256) (ht : t < 256)
    (hne : s ≠ t) :
    ofEntries (before ++ (key, s) :: after) ≠ ofEntries (before ++ (key, t) :: after) := by
  intro heq
  rw [ofEntries, ofEntries, List.foldl_append, List.foldl_append, List.foldl_cons,
    List.foldl_cons, foldl_addEntry_inj] at heq
  exact addEntry_ne hs ht hne heq

end Fingerprint

namespace Table

variable {t u : Table}

/-! ## Entries in order -/

/-- The entries are the keys in ascending order with what they are mapped to. -/
theorem sortedEntries_eq_map (table : Table) :
    table.sortedEntries =
      table.entries.keys.map fun key => (key, (table.lookup? key).getD 0) := by
  rw [← Std.ExtTreeMap.map_fst_toList_eq_keys, List.map_map, sortedEntries]
  refine (List.map_id _).symm.trans (List.map_congr_left ?_)
  rintro ⟨key, s⟩ hentry
  have hlookup : table.lookup? key = some s :=
    Std.ExtTreeMap.mem_toList_iff_getElem?_eq_some.1 hentry
  rw [Function.comp_apply, hlookup]
  rfl

theorem mem_keys_iff {key : ℕ} : key ∈ t.entries.keys ↔ (t.lookup? key).isSome := by
  rw [Std.ExtTreeMap.mem_keys, Std.ExtTreeMap.mem_iff_isSome_getElem?]
  rfl

theorem pairwise_keys (table : Table) : table.entries.keys.Pairwise (· < ·) :=
  Std.ExtTreeMap.ordered_keys.imp Nat.compare_eq_lt.1

theorem keys_eq_of_isSome_eq
    (hmapped : ∀ key, (t.lookup? key).isSome = (u.lookup? key).isSome) :
    t.entries.keys = u.entries.keys := by
  refine t.pairwise_keys.eq_of_mem_iff u.pairwise_keys fun key => ?_
  rw [mem_keys_iff, mem_keys_iff, hmapped]

theorem fingerprint_eq_of_lookup?_eq (h : ∀ key, t.lookup? key = u.lookup? key) :
    t.fingerprint = u.fingerprint := by
  have hkeys : t.entries.keys = u.entries.keys :=
    keys_eq_of_isSome_eq fun key => by rw [h]
  rw [fingerprint, fingerprint, sortedEntries_eq_map, sortedEntries_eq_map, hkeys]
  simp only [h]

/-- Of two tables that map the same keys, and one of them differently, the entries are the
same before that key and after it. -/
theorem exists_sortedEntries_eq {key : ℕ} {r s : State}
    (hmapped : ∀ k, (t.lookup? k).isSome = (u.lookup? k).isSome)
    (hr : t.lookup? key = some r) (hs : u.lookup? key = some s)
    (hsame : ∀ k, k ≠ key → t.lookup? k = u.lookup? k) :
    ∃ before after, t.sortedEntries = before ++ (key, r) :: after ∧
      u.sortedEntries = before ++ (key, s) :: after := by
  have hkey : key ∈ t.entries.keys := by
    rw [mem_keys_iff, hr]
    rfl
  obtain ⟨before, after, hsplit⟩ := List.append_of_mem hkey
  have hdistinct : (before ++ key :: after).Nodup := by
    rw [← hsplit]
    exact t.pairwise_keys.imp Nat.ne_of_lt
  rw [List.nodup_middle, List.nodup_cons, List.mem_append, not_or] at hdistinct
  obtain ⟨⟨hbefore, hafter⟩, -⟩ := hdistinct
  have hrest : ∀ keys : List ℕ, key ∉ keys →
      (keys.map fun k => (k, (u.lookup? k).getD 0)) =
        keys.map fun k => (k, (t.lookup? k).getD 0) := by
    intro keys hkeys
    apply List.map_congr_left
    intro k hk
    have hne : k ≠ key := fun heq => hkeys (heq ▸ hk)
    rw [hsame k hne]
  refine ⟨before.map fun k => (k, (t.lookup? k).getD 0),
    after.map fun k => (k, (t.lookup? k).getD 0), ?_, ?_⟩
  · rw [sortedEntries_eq_map, hsplit, List.map_append, List.map_cons, hr]
    rfl
  · rw [sortedEntries_eq_map, ← keys_eq_of_isSome_eq hmapped, hsplit, List.map_append,
      List.map_cons, hs, hrest before hbefore, hrest after hafter]
    rfl

/-- The fingerprint tells tables apart that map the same keys and differ at one of
them. -/
theorem fingerprint_ne_of_existsUnique
    (ht : ∀ {key s}, t.lookup? key = some s → s < 256)
    (hu : ∀ {key s}, u.lookup? key = some s → s < 256)
    (hmapped : ∀ key, (t.lookup? key).isSome = (u.lookup? key).isSome)
    (hchange : ∃! key, t.lookup? key ≠ u.lookup? key) : t.fingerprint ≠ u.fingerprint := by
  obtain ⟨key, hne, honly⟩ := hchange
  have hsame : ∀ k, k ≠ key → t.lookup? k = u.lookup? k :=
    fun k hk => not_not.1 fun hdiffer => hk (honly k hdiffer)
  have hkey := hmapped key
  cases hr : t.lookup? key with
  | none =>
    rw [hr] at hkey hne
    have hnone : u.lookup? key = none := by
      rw [← Option.not_isSome_iff_eq_none, ← hkey]
      exact Bool.false_ne_true
    exact absurd hnone.symm hne
  | some r =>
    rw [hr] at hkey
    obtain ⟨s, hs⟩ := Option.isSome_iff_exists.1 hkey.symm
    rw [hr, hs] at hne
    obtain ⟨before, after, htEntries, huEntries⟩ :=
      exists_sortedEntries_eq hmapped hr hs hsame
    rw [fingerprint, fingerprint, htEntries, huEntries]
    exact Fingerprint.ofEntries_ne (ht hr) (hu hs) fun heq => hne (congrArg some heq)

end Table

namespace Rule

variable {rule first second : Rule} {settings firstSettings secondSettings : Settings}
  {table t u : Table}

/-! ## Built tables -/

/-- A build can end with the table: the clauses are written in order, or they are shared
out to workers who finish in some run. -/
inductive Yields (rule : Rule) (settings : Settings) : Table → Prop
  | inOrder {table : Table} (hworkers : settings.usedWorkers = none)
      (hbuild : rule.build settings = .ok table) : Yields rule settings table
  | sharedOut {workers : ℕ} {initial : Table} {d : Dispatch}
      (hworkers : settings.usedWorkers = some workers) (hvalid : rule.validate = .ok ())
      (hinitial : rule.initialTable settings = .ok initial)
      (hreachable : Dispatch.Reachable rule workers initial d)
      (hfinished : d.isFinished rule = true) : Yields rule settings d.table

/-- Whoever expands the clauses, the table is the one that is built in order. -/
theorem Yields.build_eq_ok (h : rule.Yields settings table) :
    rule.build settings = .ok table := by
  cases h with
  | inOrder _ hbuild => exact hbuild
  | sharedOut _ hvalid hinitial hreachable hfinished =>
    obtain ⟨log, hlog⟩ := Dispatch.reachable_iff_exists_history.1 hreachable
    have hinvariant := Dispatch.Invariant.of_history (packing_of_initialTable hinitial) hlog
    rw [Dispatch.isFinished, beq_iff_eq] at hfinished
    rw [build_eq_ok_iff]
    refine ⟨hvalid, _, hinitial, ?_⟩
    rw [hinvariant.table_eq, hfinished, tableAfter, List.take_length, allTransitions]

/-- What a built table maps a key to fits a byte. -/
theorem Yields.lt_of_lookup? (h : rule.Yields settings table) {key : ℕ} {s : State}
    (hs : table.lookup? key = some s) : s < 256 := by
  have hbuild := h.build_eq_ok
  have hlt := (isWellFormed_of_build hbuild).lt_stateCount hs
  have hvalid := validate_eq_ok_iff_isWellFormed.1 (build_eq_ok_iff.1 hbuild).1
  rw [packing_of_build hbuild] at hlt
  exact Nat.lt_of_lt_of_le hlt hvalid.stateCount.2

/-- **The fingerprint tells any single change.**  Whatever rules and settings two tables
were built from, if they map the same keys and differ in the next state of one key, their
fingerprints differ; and if they have the same entries, their fingerprints are equal,
whether the clauses were written in order or shared out to workers. -/
theorem fingerprint_tells_single_change (ht : first.Yields firstSettings t)
    (hu : second.Yields secondSettings u) :
    ((∀ key, (t.lookup? key).isSome = (u.lookup? key).isSome) →
      (∃! key, t.lookup? key ≠ u.lookup? key) → t.fingerprint ≠ u.fingerprint) ∧
    ((∀ key, t.lookup? key = u.lookup? key) → t.fingerprint = u.fingerprint) :=
  ⟨Table.fingerprint_ne_of_existsUnique ht.lt_of_lookup? hu.lt_of_lookup?,
    Table.fingerprint_eq_of_lookup?_eq⟩

/-- A rule with a cell that is born in a given state, and one that dies. -/
def nursery (s : State) : Rule where
  stateCount := 3
  symmetry := .none
  clauses :=
    [⟨.state 0, ⟨[.state 2, .state 2, .state 0, .state 1, .state 0, .state 0, .state 0,
        .state 0], rfl⟩, .state s, 2⟩,
     ⟨.state 2, ⟨[.state 2, .state 2, .state 0, .state 1, .state 0, .state 1, .state 0,
        .state 0], rfl⟩, .state 0, 3⟩]

theorem lookup?_nursery (s : State) (key : ℕ) :
    ((nursery s).blankTable.writeAll (nursery s).allTransitions).lookup? key =
      if (⟨3⟩ : Packing).packStates [2, 2, 2, 0, 1, 0, 1, 0, 0] = key then some 0
      else if (⟨3⟩ : Packing).packStates [0, 2, 2, 0, 1, 0, 0, 0, 0] = key then some s
      else none := by
  have hblank : (nursery s).blankTable.lookup? key = none := Std.ExtTreeMap.getElem?_empty
  obtain ⟨born, died, hwrites, hborn, hdied⟩ : ∃ born died : Configuration,
      (nursery s).allTransitions = [(born, s), (died, 0)] ∧
        born.states = [0, 2, 2, 0, 1, 0, 0, 0, 0] ∧
        died.states = [2, 2, 2, 0, 1, 0, 1, 0, 0] := ⟨_, _, rfl, rfl, rfl⟩
  rw [hwrites, Table.writeAll_cons, Table.writeAll_cons, Table.writeAll_nil,
    Table.lookup?_write, Table.lookup?_write, hblank, Packing.pack, Packing.pack, hborn, hdied]
  rfl

/-- The state of birth is told from the fingerprint, also if the clauses were shared out
to two workers. -/
theorem nursery_told_by_fingerprint :
    ∃ t u, (nursery 1).Yields {} t ∧ (nursery 2).Yields { workers := some 2 } u ∧
      t.fingerprint ≠ u.fingerprint := by
  have ht : (nursery 1).Yields {} _ := .inOrder rfl (build_eq_of_unmapped rfl rfl)
  obtain ⟨log, hrun⟩ := Dispatch.exists_history_run Dispatch.crossed
    (@Dispatch.History.start (nursery 2) 2 (nursery 2).blankTable)
  have hu : (nursery 2).Yields { workers := some 2 } _ :=
    .sharedOut rfl rfl rfl (Dispatch.reachable_iff_exists_history.2 ⟨log, hrun⟩) rfl
  have htable := Except.ok.inj
    (hu.build_eq_ok.symm.trans (@build_eq_of_unmapped (nursery 2) { workers := some 2 } rfl rfl))
  refine ⟨_, _, ht, hu, (fingerprint_tells_single_change ht hu).1 ?_ ?_⟩
  · intro key
    rw [htable, lookup?_nursery, lookup?_nursery]
    split
    · rfl
    · split <;> rfl
  · refine ⟨(⟨3⟩ : Packing).packStates [0, 2, 2, 0, 1, 0, 0, 0, 0], ?_, fun key hkey => ?_⟩
    · simp only [htable, lookup?_nursery]
      decide
    · simp only [htable, lookup?_nursery] at hkey
      by_contra hne
      rw [if_neg (Ne.symm hne), if_neg (Ne.symm hne)] at hkey
      exact hkey rfl

end Rule

end Cellular
