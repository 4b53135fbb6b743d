import Cellular.Proofs.KeyFaults
import Cellular.Table.Cache

/-!
# What a cache answers

A table that a cache keeps was built for a text requested before that has the
same key.  So an answer from the cache is the answer of a build of its own
whenever the text can be read and gives the rule the name that the kept table
has; the entries are the right ones for every text that can be read.  A text that
cannot be read has no kept table, unless one of its lines loses its keyword in the
key, so that it gets the error of its own build.
-/

namespace Cellular

namespace InsertionMap

theorem get?_of_get?_dropOldest {κ α : Type} [DecidableEq κ] {map : InsertionMap κ α}
    {count : ℕ} {key : κ} {value : α}
    (h : (map.dropOldest count).get? key = some value) : map.get? key = some value := by
  have hmem : (key, value) ∈ map.entries.drop count := mem_of_lookup_eq_some h
  exact lookup_eq_some_of_mem map.nodup (List.mem_of_mem_drop hmem)

end InsertionMap

namespace Rule

theorem exists_read_of_buildText {text : String} {settings : Settings} {table : Table}
    (h : buildText text settings = .ok table) : ∃ rule, read text = .ok rule := by
  rw [buildText] at h
  cases hread : read text with
  | error e =>
    rw [hread] at h
    cases h
  | ok rule => exact ⟨rule, rfl⟩

/-- A text that can be read is built into the table of any text with its key,
except for the name. -/
theorem buildText_of_key_eq {text source : String} {rule : Rule} {settings : Settings}
    {table : Table} (hread : read text = .ok rule) (hkey : key source = key text)
    (hbuild : buildText source settings = .ok table) :
    buildText text settings = .ok { table with name := rule.name } ∧
      rule.name.map collapsed = table.name.map collapsed := by
  obtain ⟨other, hsource⟩ := exists_read_of_buildText hbuild
  obtain ⟨hcore, hname⟩ := core_eq_of_key_eq hread hsource hkey
  rw [buildText, hsource] at hbuild
  rw [← name_of_build hbuild] at hname
  rw [buildText, hread]
  exact ⟨build_of_core_eq hcore.symm hbuild, hname.symm⟩

end Rule

namespace TableCache

/-- What a cache can be asked for. -/
inductive Request where
  | getOrBuild (text : String)
  | get (text : String)
  | contains (text : String)
  | invalidate (text : String)
  | clear

/-- The cache after a request. -/
def perform (cache : TableCache) : Request → TableCache
  | .getOrBuild text => (cache.getOrBuild text).2
  | .get _ => cache
  | .contains _ => cache
  | .invalidate text => (cache.invalidate text).2
  | .clear => cache.clear

/-- The cache after some requests. -/
def run (cache : TableCache) (requests : List Request) : TableCache :=
  requests.foldl perform cache

/-- The table that a cache returns for a text. -/
def answer (cache : TableCache) (text : String) : Except BuildError Table :=
  (cache.getOrBuild text).1.map CachedTable.table

/-- Every table that is kept was built for one of the requests. -/
def Accounted (requests : List Request) (cache : TableCache) : Prop :=
  ∀ key built, cache.tables.get? key = some built →
    ∃ source, .getOrBuild source ∈ requests ∧ Rule.key source = key ∧
      Rule.buildText source cache.settings = .ok built.table

variable {cache : TableCache}

theorem answer_of_get?_eq_some {text : String} {built : CachedTable}
    (h : cache.get? text = some built) : cache.answer text = .ok built.table := by
  rw [get?] at h
  rw [answer, getOrBuild, h]
  rfl

theorem answer_of_get?_eq_none {text : String} (h : cache.get? text = none) :
    cache.answer text = Rule.buildText text cache.settings := by
  rw [get?] at h
  rw [answer, getOrBuild, h]
  cases Rule.buildText text cache.settings <;> rfl

theorem settings_perform (cache : TableCache) (request : Request) :
    (cache.perform request).settings = cache.settings := by
  cases request with
  | getOrBuild text =>
    rw [perform, getOrBuild]
    split
    · rfl
    · cases Rule.buildText text cache.settings <;> rfl
  | get text | contains text | invalidate text | clear => rfl

theorem settings_run (cache : TableCache) (requests : List Request) :
    (cache.run requests).settings = cache.settings := by
  induction requests generalizing cache with
  | nil => rfl
  | cons request rest ih =>
    have hrun : cache.run (request :: rest) = (cache.perform request).run rest := rfl
    rw [hrun, ih, settings_perform]

theorem get?_of_get?_withRoom {key : String} {built : CachedTable}
    (h : cache.withRoom.get? key = some built) : cache.tables.get? key = some built := by
  rw [withRoom] at h
  split at h
  · exact h
  · exact InsertionMap.get?_of_get?_dropOldest h

/-- Where the tables kept after a request come from. -/
theorem get?_perform {request : Request} {key : String} {built : CachedTable}
    (h : (cache.perform request).tables.get? key = some built) :
    cache.tables.get? key = some built ∨
      ∃ text, request = .getOrBuild text ∧ Rule.key text = key ∧
        Rule.buildText text cache.settings = .ok built.table := by
  cases request with
  | getOrBuild text =>
    rw [perform, getOrBuild] at h
    split at h
    · exact Or.inl h
    · cases hbuild : Rule.buildText text cache.settings with
      | error e =>
        simp only [hbuild] at h
        exact Or.inl h
      | ok table =>
        simp only [hbuild, InsertionMap.get?_insert] at h
        split at h
        · rename_i hkey
          cases h
          exact Or.inr ⟨text, rfl, hkey.symm, hbuild⟩
        · exact Or.inl (get?_of_get?_withRoom h)
  | get text | contains text => exact Or.inl h
  | invalidate text =>
    have herase : (cache.tables.erase (Rule.key text)).get? key = some built := h
    rw [InsertionMap.get?_erase] at herase
    split at herase
    · cases herase
    · exact Or.inl herase
  | clear => cases h

theorem accounted_perform {requests : List Request} (h : cache.Accounted requests)
    (request : Request) : (cache.perform request).Accounted (requests ++ [request]) := by
  intro key built hget
  rw [settings_perform]
  rcases get?_perform hget with hkept | ⟨text, rfl, hkey, hbuild⟩
  · obtain ⟨source, hmem, hsource⟩ := h key built hkept
    exact ⟨source, List.mem_append_left _ hmem, hsource⟩
  · exact ⟨text, List.mem_append_right _ (List.mem_singleton_self _), hkey, hbuild⟩

theorem accounted_run {before : List Request} (h : cache.Accounted before)
    (requests : List Request) :
    (cache.run requests).Accounted (before ++ requests) := by
  induction requests generalizing cache before with
  | nil => rwa [List.append_nil]
  | cons request rest ih =>
    have hnext := ih (accounted_perform h request)
    rwa [List.append_assoc] at hnext

theorem accounted_new (settings : Settings) (capacity : Option ℕ) :
    (new settings capacity).Accounted [] := by
  intro key built h
  cases h

section Run

variable {settings : Settings} {capacity : Option ℕ} {requests : List Request}
  {text : String} {built : CachedTable}

/-- What is kept for a text was built for an earlier text with the same key. -/
theorem exists_source_of_get?
    (h : ((new settings capacity).run requests).get? text = some built) :
    ∃ source, .getOrBuild source ∈ requests ∧ Rule.key source = Rule.key text ∧
      Rule.buildText source settings = .ok built.table := by
  have haccounted := accounted_run (accounted_new settings capacity) requests
  obtain ⟨source, hmem, hkey, hbuild⟩ := haccounted _ built h
  rw [settings_run] at hbuild
  exact ⟨source, hmem, hkey, hbuild⟩

theorem answer_run_of_get?_eq_none
    (h : ((new settings capacity).run requests).get? text = none) :
    ((new settings capacity).run requests).answer text =
      Rule.buildText text settings := by
  rw [answer_of_get?_eq_none h, settings_run]
  rfl

/-- A text that can be read is built into the table that is kept for it, except
for the name. -/
theorem buildText_of_get? {rule : Rule} (hread : Rule.read text = .ok rule)
    (h : ((new settings capacity).run requests).get? text = some built) :
    Rule.buildText text settings = .ok { built.table with name := rule.name } ∧
      rule.name.map Rule.collapsed = built.table.name.map Rule.collapsed := by
  obtain ⟨source, -, hkey, hbuild⟩ := exists_source_of_get? h
  exact Rule.buildText_of_key_eq hread hkey hbuild

/-- An answer is that of a build of its own exactly if nothing is kept for the
text, or it can be read and has the name of the table that is kept. -/
theorem answer_run_eq_iff :
    ((new settings capacity).run requests).answer text =
        Rule.buildText text settings ↔
      ∀ built, ((new settings capacity).run requests).get? text = some built →
        ∃ rule, Rule.read text = .ok rule ∧ rule.name = built.table.name := by
  constructor
  · intro hanswer built hget
    rw [answer_of_get?_eq_some hget, Rule.buildText] at hanswer
    cases hread : Rule.read text with
    | error e =>
      rw [hread] at hanswer
      cases hanswer
    | ok rule =>
      rw [hread] at hanswer
      exact ⟨rule, rfl, (Rule.name_of_build hanswer.symm).symm⟩
  · intro hnames
    cases hget : ((new settings capacity).run requests).get? text with
    | none => exact answer_run_of_get?_eq_none hget
    | some built =>
      obtain ⟨rule, hread, hname⟩ := hnames built hget
      rw [answer_of_get?_eq_some hget, (buildText_of_get? hread hget).1, hname]

/-- A text with a kept table is read, unless a line of it loses its keyword in the key. -/
theorem exists_read_of_get?
    (hkeeps : ∀ line ∈ Rule.tableTexts true (Line.rawLines text.toList),
      ¬ TableLine.LosesKeyword line)
    (h : ((new settings capacity).run requests).get? text = some built) :
    ∃ rule, Rule.read text = .ok rule := by
  obtain ⟨source, -, hkey, hbuild⟩ := exists_source_of_get? h
  obtain ⟨rule, hread⟩ := Rule.exists_read_of_buildText hbuild
  obtain ⟨moved, hmoved, -⟩ := Rule.read_key hread
  rw [hkey] at hmoved
  exact Rule.exists_read_of_read_key hmoved hkeeps

/-- A build that succeeds is answered, up to the blanks in the name. -/
theorem exists_answer_of_buildText {table : Table}
    (h : Rule.buildText text settings = .ok table) :
    ∃ answered, ((new settings capacity).run requests).answer text = .ok answered ∧
      answered.packing = table.packing ∧ answered.entries = table.entries ∧
      answered.name.map Rule.collapsed = table.name.map Rule.collapsed := by
  cases hget : ((new settings capacity).run requests).get? text with
  | none =>
    rw [answer_run_of_get?_eq_none hget]
    exact ⟨table, h, rfl, rfl, rfl⟩
  | some built =>
    obtain ⟨rule, hread⟩ := Rule.exists_read_of_buildText h
    obtain ⟨hbuild, hname⟩ := buildText_of_get? hread hget
    rw [h] at hbuild
    cases hbuild
    exact ⟨built.table, answer_of_get?_eq_some hget, rfl, rfl, hname.symm⟩

/-- The errors answered are those of the build of the text, if no line of it loses its
keyword in the key. -/
theorem answer_run_eq_error_iff
    (hkeeps : ∀ line ∈ Rule.tableTexts true (Line.rawLines text.toList),
      ¬ TableLine.LosesKeyword line) (e : BuildError) :
    ((new settings capacity).run requests).answer text = .error e ↔
      Rule.buildText text settings = .error e := by
  cases hget : ((new settings capacity).run requests).get? text with
  | none => rw [answer_run_of_get?_eq_none hget]
  | some built =>
    obtain ⟨rule, hread⟩ := exists_read_of_get? hkeeps hget
    rw [answer_of_get?_eq_some hget, (buildText_of_get? hread hget).1]
    constructor <;> intro h <;> cases h

end Run

/-- After any requests, a text for which nothing is kept gets the answer of a
build of its own, and what is kept for a text was built for an earlier text with
the same key.  If a text can be built, the answer is a table with the entries and the
layout of its own build and with its own name, up to the blanks in the name.  The errors
are those of its own build, whether or not it can be read, unless a line of the text
loses its keyword in the key; no text that can be read has such a line. -/
theorem answer_run (settings : Settings) (capacity : Option ℕ)
    (requests : List Request) (text : String) :
    (((new settings capacity).run requests).get? text = none →
      ((new settings capacity).run requests).answer text =
        Rule.buildText text settings) ∧
    (∀ built, ((new settings capacity).run requests).get? text = some built →
      ∃ source, .getOrBuild source ∈ requests ∧ Rule.key source = Rule.key text ∧
        Rule.buildText source settings = .ok built.table) ∧
    (∀ table, Rule.buildText text settings = .ok table →
      ∃ answered, ((new settings capacity).run requests).answer text = .ok answered ∧
        answered.packing = table.packing ∧ answered.entries = table.entries ∧
        answered.name.map Rule.collapsed = table.name.map Rule.collapsed) ∧
    ((∀ line ∈ Rule.tableTexts true (Line.rawLines text.toList),
        ¬ TableLine.LosesKeyword line) →
      ∀ e, ((new settings capacity).run requests).answer text = .error e ↔
        Rule.buildText text settings = .error e) ∧
    ∀ rule, Rule.read text = .ok rule →
      ∀ line ∈ Rule.tableTexts true (Line.rawLines text.toList),
        ¬ TableLine.LosesKeyword line :=
  ⟨answer_run_of_get?_eq_none, fun _ => exists_source_of_get?,
    fun _ => exists_answer_of_buildText, answer_run_eq_error_iff,
    fun _ => Rule.not_losesKeyword_of_read⟩

/-- The key keeps single spaces in a name, and not the space that makes the line
in the last text a declaration without a name. -/
theorem answer_ne_buildText :
    ((new {} none).run [.getOrBuild "@RULE A B\n"]).answer "@RULE A  B\n" ≠
      Rule.buildText "@RULE A  B\n" {} ∧
    ((new {} none).run [.getOrBuild "@TABLE\nvar={0:1}\n"]).answer
        "@TABLE\nvar ={0:1}\n" ≠
      Rule.buildText "@TABLE\nvar ={0:1}\n" {} := by
  constructor
  · have hbuild : (Rule.buildText "@RULE A  B\n" {}).map Table.name =
        .ok (some "A  B") := rfl
    have hanswer :
        (((new {} none).run [.getOrBuild "@RULE A B\n"]).answer "@RULE A  B\n").map
          Table.name = .ok (some "A B") := rfl
    intro h
    rw [h, hbuild, Except.ok.injEq] at hanswer
    exact absurd hanswer (by decide)
  · have hbuild : Rule.buildText "@TABLE\nvar ={0:1}\n" {} =
        .error (.unreadable ⟨2, .declaration (.badName "")⟩) := rfl
    have hanswer : ∃ table,
        ((new {} none).run [.getOrBuild "@TABLE\nvar={0:1}\n"]).answer
          "@TABLE\nvar ={0:1}\n" = .ok table := ⟨_, rfl⟩
    obtain ⟨table, htable⟩ := hanswer
    rw [htable, hbuild]
    intro h
    cases h

end TableCache

end Cellular
