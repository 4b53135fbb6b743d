import Cellular.Proofs.Cache

/-!
# A cache is a bounded queue

The tables of a cache stand in a queue in the order in which they were built.  A build
that succeeds puts its table at the end, and if the cache is full the first table makes
room; nothing else but an invalidation and a clearing takes a table away, and nothing
changes the order.  So two answers are one and the same table exactly if they are for one
key, which has not left the queue in between.
-/

namespace Cellular

namespace TableCache

/-- What a request is answered with. -/
inductive Reply where
  | table (built : CachedTable)
  | refused (e : BuildError)
  | absent
  | told (kept : Bool)
  | done

/-- The answer to a request. -/
def reply (cache : TableCache) : Request → Reply
  | .getOrBuild text =>
    match (cache.getOrBuild text).1 with
    | .ok built => .table built
    | .error e => .refused e
  | .get text =>
    match cache.get? text with
    | some built => .table built
    | none => .absent
  | .contains text => .told (cache.contains text)
  | .invalidate text => .told (cache.invalidate text).1
  | .clear => .done

/-- The key that a request is about. -/
def Request.key? : Request → Option String
  | .getOrBuild text | .get text | .contains text | .invalidate text => some (Rule.key text)
  | .clear => none

/-- Whether a request asks for a table to be built if there is none. -/
def Request.mayBuild : Request → Bool
  | .getOrBuild _ => true
  | _ => false

/-! ## The queue -/

/-- A cache that keeps as many tables as it may. -/
def IsFull (cache : TableCache) : Prop :=
  cache.capacity = some cache.size

/-- The entries that stay when one more table is to be kept: all of them, or all but the
oldest if the cache is full. -/
inductive LeavesRoom (cache : TableCache) : List (String × CachedTable) → Prop where
  | all (hfree : ¬ cache.IsFull) : LeavesRoom cache cache.tables.entries
  | butOldest {oldest : String × CachedTable} {rest : List (String × CachedTable)}
      (hfull : cache.IsFull) (hentries : cache.tables.entries = oldest :: rest) :
      LeavesRoom cache rest

/-- How a bounded queue of tables serves a request: the answer, and what is kept then. -/
inductive Serves (cache : TableCache) : Request → Reply → TableCache → Prop where
  | hit {text : String} {built : CachedTable}
      (hkept : (Rule.key text, built) ∈ cache.tables.entries) :
      Serves cache (.getOrBuild text) (.table built) { cache with hits := cache.hits + 1 }
  | stored {text : String} {table : Table} {kept : List (String × CachedTable)}
      {tables : InsertionMap String CachedTable}
      (hnew : Rule.key text ∉ cache.tables.keys)
      (hbuild : Rule.buildText text cache.settings = .ok table)
      (hroom : cache.LeavesRoom kept)
      (htables : tables.entries = kept ++ [(Rule.key text, ⟨cache.misses + 1, table⟩)]) :
      Serves cache (.getOrBuild text) (.table ⟨cache.misses + 1, table⟩)
        { cache with tables, misses := cache.misses + 1 }
  | refused {text : String} {e : BuildError}
      (hnew : Rule.key text ∉ cache.tables.keys)
      (hbuild : Rule.buildText text cache.settings = .error e) :
      Serves cache (.getOrBuild text) (.refused e) { cache with misses := cache.misses + 1 }
  | found {text : String} {built : CachedTable}
      (hkept : (Rule.key text, built) ∈ cache.tables.entries) :
      Serves cache (.get text) (.table built) cache
  | absent {text : String} (hnew : Rule.key text ∉ cache.tables.keys) :
      Serves cache (.get text) .absent cache
  | told {text : String} {kept : Bool}
      (hkept : kept = true ↔ Rule.key text ∈ cache.tables.keys) :
      Serves cache (.contains text) (.told kept) cache
  | invalidated {text : String} {kept : Bool} {tables : InsertionMap String CachedTable}
      (hkept : kept = true ↔ Rule.key text ∈ cache.tables.keys)
      (htables : tables.entries =
        cache.tables.entries.filter fun entry => entry.1 ≠ Rule.key text) :
      Serves cache (.invalidate text) (.told kept) { cache with tables }
  | cleared {tables : InsertionMap String CachedTable} (htables : tables.entries = []) :
      Serves cache .clear .done { cache with tables }

/-- A request takes the table of a key away: by building another table when the cache is
full and the key is the oldest, or by name, or with all others. -/
inductive Drops (cache : TableCache) (key : String) : Request → Prop where
  | evicted {text : String} {table : Table} {oldest : CachedTable}
      (hnew : Rule.key text ∉ cache.tables.keys)
      (hbuild : Rule.buildText text cache.settings = .ok table) (hfull : cache.IsFull)
      (holdest : cache.tables.entries.head? = some (key, oldest)) :
      Drops cache key (.getOrBuild text)
  | invalidated {text : String} (hkey : Rule.key text = key) :
      Drops cache key (.invalidate text)
  | cleared : Drops cache key .clear

/-- A bounded cache has room for a table and keeps no more than it may; the stamps ascend
along the queue, up to the number of builds so far. -/
structure IsOrderly (cache : TableCache) : Prop where
  room : ∀ bound, cache.capacity = some bound → 1 ≤ bound ∧ cache.size ≤ bound
  ascending : cache.tables.entries.Pairwise fun entry other => entry.2.stamp < other.2.stamp
  stamped : ∀ entry ∈ cache.tables.entries, entry.2.stamp ≤ cache.misses

variable {cache next : TableCache} {request : Request} {answer : Reply}
  {kept : List (String × CachedTable)} {entry : String × CachedTable}

/-! ## One request -/

theorem LeavesRoom.sublist (h : cache.LeavesRoom kept) :
    kept.Sublist cache.tables.entries := by
  cases h with
  | all => exact List.Sublist.refl _
  | butOldest _ hentries =>
    rw [hentries]
    exact List.sublist_cons_self _ _

theorem leavesRoom_withRoom (h : cache.IsOrderly) :
    cache.LeavesRoom cache.withRoom.entries := by
  rw [withRoom]
  split
  · rename_i hcapacity
    exact .all fun hfull => by rw [IsFull, hcapacity] at hfull; cases hfull
  · rename_i bound hcapacity
    obtain ⟨hpositive, hsize⟩ := h.room bound hcapacity
    change cache.LeavesRoom (cache.tables.entries.drop (cache.size + 1 - bound))
    by_cases hfull : cache.size = bound
    · have hdrop : cache.size + 1 - bound = 1 := by omega
      have hpos : 0 < cache.size := by omega
      have hne : cache.tables.entries ≠ [] := List.length_pos_iff.1 hpos
      obtain ⟨oldest, rest, hentries⟩ := List.exists_cons_of_ne_nil hne
      rw [hdrop, hentries, List.drop_one, List.tail_cons]
      exact .butOldest (by rw [IsFull, hcapacity, hfull]) hentries
    · have hdrop : cache.size + 1 - bound = 0 := by omega
      rw [hdrop, List.drop_zero]
      refine .all fun hother => hfull ?_
      rw [IsFull, hcapacity, Option.some.injEq] at hother
      exact hother.symm

/-- A cache serves every request as a bounded queue does. -/
theorem serves_perform (h : cache.IsOrderly) (request : Request) :
    Serves cache request (cache.reply request) (cache.perform request) := by
  cases request with
  | getOrBuild text =>
    rw [reply, perform, getOrBuild]
    cases hget : cache.tables.get? (Rule.key text) with
    | some built => exact .hit (mem_of_lookup_eq_some hget)
    | none =>
      have hnew := InsertionMap.get?_eq_none_iff.1 hget
      have hroom := leavesRoom_withRoom h
      cases hbuild : Rule.buildText text cache.settings with
      | error e => exact .refused hnew hbuild
      | ok table =>
        have hplace : Rule.key text ∉ cache.withRoom.keys := fun hmem =>
          hnew ((hroom.sublist.map Prod.fst).subset hmem)
        exact .stored hnew hbuild hroom (InsertionMap.entries_insert_of_not_mem hplace)
  | get text =>
    rw [reply, get?]
    cases hget : cache.tables.get? (Rule.key text) with
    | some built => exact .found (mem_of_lookup_eq_some hget)
    | none => exact .absent (InsertionMap.get?_eq_none_iff.1 hget)
  | contains text => exact .told InsertionMap.contains_iff
  | invalidate text => exact .invalidated InsertionMap.contains_iff rfl
  | clear => exact .cleared rfl

/-- A request put a table at the end of the queue. -/
structure Stores (cache : TableCache) (request : Request) (answer : Reply)
    (next : TableCache) (kept : List (String × CachedTable)) (key : String)
    (built : CachedTable) : Prop where
  request : ∃ text, request = .getOrBuild text ∧ Rule.key text = key
  new : key ∉ cache.tables.keys
  room : cache.LeavesRoom kept
  entries : next.tables.entries = kept ++ [(key, built)]
  answer : answer = .table built
  stamp : built.stamp = cache.misses + 1
  misses : next.misses = cache.misses + 1

/-- A request only takes tables away, or puts one at the end of the queue. -/
theorem Serves.sublist_or_stores (h : Serves cache request answer next) :
    next.tables.entries.Sublist cache.tables.entries ∧ cache.misses ≤ next.misses ∨
      ∃ kept key built, Stores cache request answer next kept key built := by
  cases h with
  | hit | found | absent | told => exact .inl ⟨List.Sublist.refl _, Nat.le_refl _⟩
  | refused => exact .inl ⟨List.Sublist.refl _, Nat.le_succ _⟩
  | @stored text table kept tables hnew _ hroom htables =>
    exact .inr ⟨kept, Rule.key text, ⟨cache.misses + 1, table⟩,
      ⟨text, rfl, rfl⟩, hnew, hroom, htables, rfl, rfl, rfl⟩
  | @invalidated text _ tables _ htables =>
    have hsub : tables.entries.Sublist cache.tables.entries := htables ▸ List.filter_sublist
    exact .inl ⟨hsub, Nat.le_refl _⟩
  | @cleared tables htables =>
    have hsub : tables.entries.Sublist cache.tables.entries := htables ▸ List.nil_sublist _
    exact .inl ⟨hsub, Nat.le_refl _⟩

theorem Serves.capacity (h : Serves cache request answer next) :
    next.capacity = cache.capacity := by
  cases h <;> rfl

theorem Serves.misses_le (h : Serves cache request answer next) :
    cache.misses ≤ next.misses := by
  rcases h.sublist_or_stores with ⟨-, hle⟩ | ⟨kept, key, built, hstores⟩
  · exact hle
  · exact hstores.misses ▸ Nat.le_succ _

theorem LeavesRoom.length_lt (h : cache.LeavesRoom kept) (horderly : cache.IsOrderly)
    {bound : ℕ} (hbound : cache.capacity = some bound) : kept.length < bound := by
  have hsize := (horderly.room bound hbound).2
  rw [size, InsertionMap.size] at hsize
  cases h with
  | all hfree =>
    refine Nat.lt_of_le_of_ne hsize fun heq => hfree ?_
    rw [IsFull, hbound, size, InsertionMap.size, heq]
  | butOldest _ hentries =>
    rwa [hentries, List.length_cons] at hsize

theorem Serves.isOrderly (h : Serves cache request answer next)
    (horderly : cache.IsOrderly) : next.IsOrderly := by
  obtain ⟨hroom, hascending, hstamped⟩ := horderly
  rcases h.sublist_or_stores with ⟨hsub, hmisses⟩ | ⟨kept, key, built, hstores⟩
  · refine ⟨fun bound hbound => ?_, hascending.sublist hsub, fun entry hentry => ?_⟩
    · rw [h.capacity] at hbound
      exact ⟨(hroom bound hbound).1, hsub.length_le.trans (hroom bound hbound).2⟩
    · exact (hstamped entry (hsub.subset hentry)).trans hmisses
  · have hkept : ∀ entry ∈ kept, entry.2.stamp ≤ cache.misses := fun entry hentry =>
      hstamped entry (hstores.room.sublist.subset hentry)
    refine ⟨fun bound hbound => ?_, ?_, ?_⟩
    · rw [h.capacity] at hbound
      have hlt := hstores.room.length_lt ⟨hroom, hascending, hstamped⟩ hbound
      rw [size, InsertionMap.size, hstores.entries, List.length_append,
        List.length_singleton]
      exact ⟨(hroom bound hbound).1, hlt⟩
    · rw [hstores.entries, List.pairwise_append]
      refine ⟨hascending.sublist hstores.room.sublist, List.pairwise_singleton _ _, ?_⟩
      intro entry hentry other hother
      rw [List.mem_singleton.1 hother, hstores.stamp]
      exact Nat.lt_succ_of_le (hkept entry hentry)
    · rw [hstores.entries, hstores.misses, List.forall_mem_append,
        List.forall_mem_singleton]
      exact ⟨fun entry hentry => Nat.le_succ_of_le (hkept entry hentry), hstores.stamp.le⟩

theorem Serves.counted (h : Serves cache request answer next) :
    next.hits + next.misses =
      cache.hits + cache.misses + if request.mayBuild then 1 else 0 := by
  cases h with
  | hit => exact Nat.add_right_comm _ _ _
  | stored | refused | found | absent | told | invalidated | cleared => rfl

/-- The table was got for the key by the request, and is kept for it. -/
theorem Serves.mem_of_table {built : CachedTable}
    (h : Serves cache request (.table built) next) :
    ∃ key, request.key? = some key ∧ (key, built) ∈ next.tables.entries := by
  cases h with
  | @hit text _ hkept | @found text _ hkept => exact ⟨Rule.key text, rfl, hkept⟩
  | @stored text table kept tables _ _ _ htables =>
    have hlast : (Rule.key text, ⟨cache.misses + 1, table⟩) ∈ tables.entries := by
      rw [htables]
      exact List.mem_append_right _ (List.mem_singleton_self _)
    exact ⟨Rule.key text, rfl, hlast⟩

/-- A table that is got was kept for the key of the request, or has a new stamp, and
nothing was kept for the key. -/
theorem Serves.kept_or_new {built : CachedTable}
    (h : Serves cache request (.table built) next) :
    ∃ key, request.key? = some key ∧ ((key, built) ∈ cache.tables.entries ∨
      key ∉ cache.tables.keys ∧ built.stamp = cache.misses + 1) := by
  cases h with
  | @hit text _ hkept | @found text _ hkept => exact ⟨Rule.key text, rfl, .inl hkept⟩
  | @stored text _ _ _ hnew => exact ⟨Rule.key text, rfl, .inr ⟨hnew, rfl⟩⟩

/-! ## The stay of a table -/

/-- The stamp of a table is in use, for this table under this key only. -/
structure Owns (cache : TableCache) (key : String) (built : CachedTable) : Prop where
  stamp : built.stamp ≤ cache.misses
  only : ∀ entry ∈ cache.tables.entries, entry.2.stamp = built.stamp → entry = (key, built)

variable {key : String} {built : CachedTable}

theorem IsOrderly.owns (h : cache.IsOrderly) (hkept : (key, built) ∈ cache.tables.entries) :
    cache.Owns key built := by
  refine ⟨h.stamped _ hkept, fun entry hentry hstamp => ?_⟩
  have hnodup : (cache.tables.entries.map fun entry => entry.2.stamp).Nodup :=
    (List.pairwise_map.2 h.ascending).imp Nat.ne_of_lt
  exact List.inj_on_of_nodup_map hnodup hentry hkept hstamp

theorem Owns.of_serves (howns : cache.Owns key built)
    (h : Serves cache request answer next) : next.Owns key built := by
  refine ⟨howns.stamp.trans h.misses_le, fun entry hentry hstamp => ?_⟩
  rcases h.sublist_or_stores with ⟨hsub, -⟩ | ⟨kept, other, stored, hstores⟩
  · exact howns.only entry (hsub.subset hentry) hstamp
  · rw [hstores.entries, List.mem_append, List.mem_singleton] at hentry
    rcases hentry with hkept | rfl
    · exact howns.only entry (hstores.room.sublist.subset hkept) hstamp
    · have hnew := hstores.stamp
      have hold := howns.stamp
      simp only at hstamp
      omega

theorem LeavesRoom.mem_iff (h : cache.LeavesRoom kept) :
    (key, built) ∈ kept ↔ (key, built) ∈ cache.tables.entries ∧
      ¬ (cache.IsFull ∧ ∃ oldest, cache.tables.entries.head? = some (key, oldest)) := by
  cases h with
  | all hfree => simp [hfree]
  | @butOldest oldest _ hfull hentries =>
    have hnodup := cache.tables.nodup
    rw [hentries, List.map_cons, List.nodup_cons] at hnodup
    rw [hentries, List.head?_cons, List.mem_cons]
    constructor
    · intro hkept
      refine ⟨.inr hkept, fun ⟨_, other, hhead⟩ => hnodup.1 ?_⟩
      have hkey : oldest.1 = key := congrArg Prod.fst (Option.some.inj hhead)
      exact hkey ▸ List.mem_map_of_mem hkept
    · rintro ⟨hhead | hkept, hstays⟩
      · exact absurd ⟨hfull, built, congrArg some hhead.symm⟩ hstays
      · exact hkept

/-- A table stays for its key unless the request takes the table of the key away. -/
theorem Owns.mem_entries_iff (howns : cache.Owns key built)
    (h : Serves cache request answer next) :
    (key, built) ∈ next.tables.entries ↔
      (key, built) ∈ cache.tables.entries ∧ ¬ cache.Drops key request := by
  cases h with
  | @hit text _ hkept =>
    have hstays : ¬ cache.Drops key (.getOrBuild text) := by
      rintro (⟨hnew, -, -, -⟩)
      exact hnew (List.mem_map_of_mem hkept)
    simp [hstays]
  | @stored text table _ tables hnew hbuild hroom htables =>
    have hdrops : cache.Drops key (.getOrBuild text) ↔
        cache.IsFull ∧ ∃ oldest, cache.tables.entries.head? = some (key, oldest) :=
      ⟨fun | .evicted _ _ hfull holdest => ⟨hfull, _, holdest⟩,
        fun ⟨hfull, _, holdest⟩ => .evicted hnew hbuild hfull holdest⟩
    have hother : (key, built) ≠ (Rule.key text, ⟨cache.misses + 1, table⟩) := by
      intro heq
      have hstamp := howns.stamp
      rw [(Prod.mk.inj heq).2] at hstamp
      exact Nat.not_succ_le_self _ hstamp
    change (key, built) ∈ tables.entries ↔ _
    rw [htables, List.mem_append, List.mem_singleton, or_iff_left hother, hdrops,
      hroom.mem_iff]
  | @refused text _ _ hbuild =>
    have hstays : ¬ cache.Drops key (.getOrBuild text) := by
      rintro (⟨-, hother, -, -⟩)
      rw [hbuild] at hother
      cases hother
    simp [hstays]
  | found | absent | told =>
    refine (and_iff_left ?_).symm
    rintro ⟨⟩
  | @invalidated text _ tables _ htables =>
    have hdrops : cache.Drops key (.invalidate text) ↔ Rule.key text = key :=
      ⟨fun | .invalidated hkey => hkey, .invalidated⟩
    change (key, built) ∈ tables.entries ↔ _
    rw [htables, List.mem_filter, hdrops, decide_eq_true_eq, ne_comm]
  | @cleared tables htables =>
    change (key, built) ∈ tables.entries ↔ _
    simp [htables, Drops.cleared]

/-- A table that is got is the table with a stamp in use exactly if it is got for the key
of that table, which is kept. -/
theorem Owns.stamp_eq_iff {got : CachedTable} (howns : cache.Owns key built)
    (h : Serves cache request (.table got) next) :
    (got.stamp = built.stamp ↔
      request.key? = some key ∧ (key, built) ∈ cache.tables.entries) ∧
    (got.stamp = built.stamp → got = built) := by
  obtain ⟨other, hother, hkept | ⟨hnew, hstamp⟩⟩ := h.kept_or_new
  · have hsame : got.stamp = built.stamp → (other, got) = (key, built) := howns.only _ hkept
    refine ⟨⟨fun hstamp => ?_, ?_⟩, fun hstamp => (Prod.mk.inj (hsame hstamp)).2⟩
    · have heq := hsame hstamp
      exact ⟨(Prod.mk.inj heq).1 ▸ hother, heq ▸ hkept⟩
    · rintro ⟨hkey, hbuilt⟩
      rw [hother, Option.some.injEq] at hkey
      have heq := List.inj_on_of_nodup_map cache.tables.nodup hkept hbuilt hkey
      rw [(Prod.mk.inj heq).2]
  · have hne : got.stamp ≠ built.stamp := by
      have hold := howns.stamp
      omega
    refine ⟨iff_of_false hne ?_, fun hstamp => absurd hstamp hne⟩
    rintro ⟨hkey, hbuilt⟩
    rw [hother, Option.some.injEq] at hkey
    exact hnew (hkey ▸ List.mem_map_of_mem hbuilt)

/-! ## All requests -/

theorem isOrderly_new (settings : Settings) (capacity : Option ℕ) :
    (new settings capacity).IsOrderly := by
  refine ⟨fun bound hbound => ?_, List.Pairwise.nil, fun entry hentry => nomatch hentry⟩
  obtain ⟨given, -, rfl⟩ := Option.map_eq_some_iff.1 hbound
  exact ⟨Nat.le_max_left 1 given, Nat.zero_le _⟩

theorem isOrderly_run (h : cache.IsOrderly) (requests : List Request) :
    (cache.run requests).IsOrderly := by
  induction requests generalizing cache with
  | nil => exact h
  | cons request rest ih => exact ih ((serves_perform h request).isOrderly h)

theorem capacity_run (h : cache.IsOrderly) (requests : List Request) :
    (cache.run requests).capacity = cache.capacity := by
  induction requests generalizing cache with
  | nil => rfl
  | cons request rest ih =>
    have hserves := serves_perform h request
    exact (ih (hserves.isOrderly h)).trans hserves.capacity

theorem counted_run (h : cache.IsOrderly) (requests : List Request) :
    (cache.run requests).hits + (cache.run requests).misses =
      cache.hits + cache.misses + requests.countP Request.mayBuild := by
  induction requests generalizing cache with
  | nil => rfl
  | cons request rest ih =>
    have hserves := serves_perform h request
    rw [List.countP_cons, Nat.add_comm (rest.countP _), ← Nat.add_assoc, ← hserves.counted]
    exact ih (hserves.isOrderly h)

section History

variable (settings : Settings) (capacity : Option ℕ) (requests : List Request)

/-- The cache as the request with a number finds it. -/
def before (number : ℕ) : TableCache :=
  (new settings capacity).run (requests.take number)

/-- An entry was put into the cache by the request with a number: nothing was kept for
its key, and the answer was its table. -/
def IsInsertedAt (entry : String × CachedTable) (number : ℕ) : Prop :=
  ∃ text, requests[number]? = some (.getOrBuild text) ∧ Rule.key text = entry.1 ∧
    entry.1 ∉ (before settings capacity requests number).tables.keys ∧
    (before settings capacity requests number).reply (.getOrBuild text) = .table entry.2

/-- No request from the one with number `first` on and before the one with number `last`
takes the table of a key away. -/
def IsLeftAlone (key : String) (first last : ℕ) : Prop :=
  ∀ number request, first ≤ number → number < last → requests[number]? = some request →
    ¬ (before settings capacity requests number).Drops key request

/-- A cache that was asked for tables, in every respect a bounded queue of tables. -/
structure IsBoundedQueue : Prop where
  /-- No key is kept twice. -/
  nodup : ((new settings capacity).run requests).tables.keys.Nodup
  /-- What is kept was inserted by one of the requests. -/
  inserted : ∀ entry ∈ ((new settings capacity).run requests).tables.entries,
    ∃ number, IsInsertedAt settings capacity requests entry number
  /-- The entries stand in the order in which they were inserted. -/
  ordered : ((new settings capacity).run requests).tables.entries.Pairwise
    fun entry other => ∀ number later, IsInsertedAt settings capacity requests entry number →
      IsInsertedAt settings capacity requests other later → number < later
  bounded : ∀ bound, capacity = some bound →
    ((new settings capacity).run requests).size ≤ max bound 1
  /-- Each request was served as a bounded queue serves it. -/
  serves : ∀ number request, requests[number]? = some request →
    Serves (before settings capacity requests number) request
      ((before settings capacity requests number).reply request)
      (before settings capacity requests (number + 1))
  counted : ((new settings capacity).run requests).hits +
    ((new settings capacity).run requests).misses = requests.countP Request.mayBuild
  /-- Two answers are the same table exactly if they are for one key, whose table no
  request in between has taken away. -/
  shared : ∀ number later request other built got, number < later →
    requests[number]? = some request → requests[later]? = some other →
    (before settings capacity requests number).reply request = .table built →
    (before settings capacity requests later).reply other = .table got →
    (got.stamp = built.stamp ↔ ∃ key, request.key? = some key ∧ other.key? = some key ∧
      IsLeftAlone settings capacity requests key (number + 1) later) ∧
    (got.stamp = built.stamp → got = built)

section Steps

variable {requests : List Request} {number : ℕ}

theorem before_succ (h : requests[number]? = some request) :
    before settings capacity requests (number + 1) =
      (before settings capacity requests number).perform request := by
  rw [before, before, run, run, List.take_add_one, h, List.foldl_append]
  rfl

theorem before_succ_of_none (h : requests[number]? = none) :
    before settings capacity requests (number + 1) =
      before settings capacity requests number := by
  rw [before, before, List.take_add_one, h, Option.toList_none, List.append_nil]

theorem isOrderly_before : (before settings capacity requests number).IsOrderly :=
  isOrderly_run (isOrderly_new settings capacity) _

theorem serves_before (h : requests[number]? = some request) :
    Serves (before settings capacity requests number) request
      ((before settings capacity requests number).reply request)
      (before settings capacity requests (number + 1)) := by
  rw [before_succ settings capacity h]
  exact serves_perform (isOrderly_before settings capacity) request

end Steps

variable {settings : Settings} {capacity : Option ℕ} {requests : List Request}
  {number later : ℕ}

theorem before_length :
    before settings capacity requests requests.length =
      (new settings capacity).run requests := by
  rw [before, List.take_length]

theorem misses_before_le (h : number ≤ later) :
    (before settings capacity requests number).misses ≤
      (before settings capacity requests later).misses := by
  induction later, h using Nat.le_induction with
  | base => exact Nat.le_refl _
  | succ later _ ih =>
    cases hrequest : requests[later]? with
    | none => rwa [before_succ_of_none settings capacity hrequest]
    | some request => exact ih.trans (serves_before settings capacity hrequest).misses_le

theorem IsInsertedAt.stamp (h : IsInsertedAt settings capacity requests entry number) :
    entry.2.stamp = (before settings capacity requests number).misses + 1 := by
  obtain ⟨text, hrequest, hkey, hnew, hreply⟩ := h
  have hserves := serves_before settings capacity hrequest
  rw [hreply] at hserves
  obtain ⟨key, hother, hkept | ⟨-, hstamp⟩⟩ := hserves.kept_or_new
  · cases hother
    exact absurd (List.mem_map_of_mem (f := Prod.fst) hkept) (hkey ▸ hnew)
  · exact hstamp

theorem exists_isInsertedAt
    (hentry : entry ∈ (before settings capacity requests later).tables.entries) :
    ∃ number, IsInsertedAt settings capacity requests entry number := by
  induction later with
  | zero => cases hentry
  | succ later ih =>
    cases hrequest : requests[later]? with
    | none => exact ih (before_succ_of_none settings capacity hrequest ▸ hentry)
    | some request =>
      have hserves := serves_before settings capacity hrequest
      rcases hserves.sublist_or_stores with ⟨hsub, -⟩ | ⟨kept, key, built, hstores⟩
      · exact ih (hsub.subset hentry)
      · rw [hstores.entries, List.mem_append, List.mem_singleton] at hentry
        rcases hentry with hkept | rfl
        · exact ih (hstores.room.sublist.subset hkept)
        · obtain ⟨text, rfl, hkey⟩ := hstores.request
          exact ⟨later, text, hrequest, hkey, hstores.new, hstores.answer⟩

theorem lt_of_isInsertedAt {other : String × CachedTable}
    (hstamp : entry.2.stamp < other.2.stamp)
    (hentry : IsInsertedAt settings capacity requests entry number)
    (hother : IsInsertedAt settings capacity requests other later) : number < later := by
  rw [hentry.stamp, hother.stamp] at hstamp
  by_contra hle
  have hmisses : (before settings capacity requests later).misses ≤
      (before settings capacity requests number).misses :=
    misses_before_le (Nat.le_of_not_lt hle)
  omega

theorem isLeftAlone_succ_iff {first last : ℕ} (hle : first ≤ last) :
    IsLeftAlone settings capacity requests key first (last + 1) ↔
      IsLeftAlone settings capacity requests key first last ∧
        ∀ request, requests[last]? = some request →
          ¬ (before settings capacity requests last).Drops key request := by
  constructor
  · intro h
    refine ⟨fun number request hfrom hto => ?_, fun request => ?_⟩
    · exact h number request hfrom (hto.trans (Nat.lt_succ_self _))
    · exact h last request hle (Nat.lt_succ_self _)
  · rintro ⟨hbefore, hlast⟩ number request hfrom hto
    rcases Nat.lt_succ_iff_lt_or_eq.1 hto with hlt | rfl
    · exact hbefore number request hfrom hlt
    · exact hlast request

/-- A table that is kept stays as long as no request takes the table of its key away, and
its stamp remains its own. -/
theorem owns_and_mem_iff_isLeftAlone
    (hkept : (key, built) ∈ (before settings capacity requests number).tables.entries)
    (hle : number ≤ later) :
    (before settings capacity requests later).Owns key built ∧
    ((key, built) ∈ (before settings capacity requests later).tables.entries ↔
      IsLeftAlone settings capacity requests key number later) := by
  induction later, hle using Nat.le_induction with
  | base =>
    refine ⟨(isOrderly_before settings capacity).owns hkept, iff_of_true hkept ?_⟩
    intro between request hfrom hto
    omega
  | succ later hle ih =>
    obtain ⟨howns, hstays⟩ := ih
    rw [isLeftAlone_succ_iff hle]
    cases hrequest : requests[later]? with
    | none =>
      rw [before_succ_of_none settings capacity hrequest, hstays]
      exact ⟨howns, (and_iff_left fun request h => nomatch h).symm⟩
    | some request =>
      have hserves := serves_before settings capacity hrequest
      refine ⟨howns.of_serves hserves, ?_⟩
      rw [howns.mem_entries_iff hserves, hstays]
      simp

/-- Two answers are the same table exactly if they are for one key, whose table no request
in between has taken away. -/
theorem stamp_eq_iff_isLeftAlone {other : Request} {got : CachedTable} (hlt : number < later)
    (hrequest : requests[number]? = some request) (hother : requests[later]? = some other)
    (hbuilt : (before settings capacity requests number).reply request = .table built)
    (hgot : (before settings capacity requests later).reply other = .table got) :
    (got.stamp = built.stamp ↔ ∃ key, request.key? = some key ∧ other.key? = some key ∧
      IsLeftAlone settings capacity requests key (number + 1) later) ∧
    (got.stamp = built.stamp → got = built) := by
  have hfirst := serves_before settings capacity hrequest
  have hsecond := serves_before settings capacity hother
  rw [hbuilt] at hfirst
  rw [hgot] at hsecond
  obtain ⟨key, hkey, hkept⟩ := hfirst.mem_of_table
  obtain ⟨howns, hstays⟩ := owns_and_mem_iff_isLeftAlone hkept hlt
  obtain ⟨hsame, heq⟩ := howns.stamp_eq_iff hsecond
  refine ⟨?_, heq⟩
  rw [hsame, hstays]
  simp only [hkey, Option.some.injEq, exists_eq_left']

end History

/-- A cache that is asked for tables is a bounded queue of tables, whatever the settings,
the capacity and the requests are. -/
theorem cache_is_bounded_queue (settings : Settings) (capacity : Option ℕ)
    (requests : List Request) : IsBoundedQueue settings capacity requests where
  nodup := ((new settings capacity).run requests).tables.nodup
  inserted entry hentry := by
    rw [← before_length] at hentry
    exact exists_isInsertedAt hentry
  ordered := by
    have horderly := isOrderly_run (isOrderly_new settings capacity) requests
    exact horderly.ascending.imp fun hstamp _ _ => lt_of_isInsertedAt hstamp
  bounded bound hbound := by
    have hnew := isOrderly_new settings capacity
    have hcapacity :
        ((new settings capacity).run requests).capacity = some (max 1 bound) := by
      rw [capacity_run hnew, hbound]
      rfl
    rw [Nat.max_comm]
    exact ((isOrderly_run hnew requests).room _ hcapacity).2
  serves _ _ hrequest := serves_before settings capacity hrequest
  counted := by
    rw [counted_run (isOrderly_new settings capacity)]
    exact Nat.zero_add _
  shared _ _ _ _ _ _ hlt hrequest hother hbuilt hgot :=
    stamp_eq_iff_isLeftAlone hlt hrequest hother hbuilt hgot

/-- A text that cannot be read takes no table away; one that can be read takes the only
place. -/
example :
    ((new {} (some 1)).run
      [.getOrBuild "@RULE A\n", .getOrBuild "n_states:1\n"]).tables.keys = ["@RULE A"] ∧
    ((new {} (some 1)).run
      [.getOrBuild "@RULE A\n", .getOrBuild "@RULE B\n"]).tables.keys = ["@RULE B"] :=
  ⟨rfl, rfl⟩

end TableCache

end Cellular
