import Cellular.Proofs.Packing
import Cellular.Table.Build

/-!
# What a sequence of writes leaves in a table

The last write to a key decides what the key is mapped to, and keys that are
not written stay as they were.  For configurations whose states fit their slots
the same holds with configurations in place of keys.  A build writes the
transitions of all clauses, clause after clause.
-/

namespace Cellular

/-- Every state of a configuration fits its slot. -/
def Packing.Fits (p : Packing) (c : Configuration) : Prop :=
  ∀ s ∈ c.states, s < 2 ^ p.width

theorem Packing.fits_of_lt_stateCount {p : Packing} {c : Configuration}
    (h : ∀ s ∈ c.states, s < p.stateCount) : p.Fits c :=
  fun s hs => Nat.lt_of_lt_of_le (h s hs) p.stateCount_le_two_pow_width

namespace Table

@[simp]
theorem packing_write (table : Table) (transition : Configuration × State) :
    (table.write transition).packing = table.packing :=
  rfl

@[simp]
theorem name_write (table : Table) (transition : Configuration × State) :
    (table.write transition).name = table.name :=
  rfl

@[simp]
theorem writeAll_nil (table : Table) : table.writeAll [] = table :=
  rfl

@[simp]
theorem writeAll_cons (table : Table) (transition : Configuration × State)
    (rest : List (Configuration × State)) :
    table.writeAll (transition :: rest) = (table.write transition).writeAll rest :=
  rfl

theorem writeAll_append (table : Table)
    (first second : List (Configuration × State)) :
    table.writeAll (first ++ second) = (table.writeAll first).writeAll second :=
  List.foldl_append

@[simp]
theorem packing_writeAll (table : Table)
    (transitions : List (Configuration × State)) :
    (table.writeAll transitions).packing = table.packing := by
  induction transitions generalizing table with
  | nil => rfl
  | cons transition rest ih => rw [writeAll_cons, ih, packing_write]

@[simp]
theorem name_writeAll (table : Table)
    (transitions : List (Configuration × State)) :
    (table.writeAll transitions).name = table.name := by
  induction transitions generalizing table with
  | nil => rfl
  | cons transition rest ih => rw [writeAll_cons, ih, name_write]

/-- Keys that are not written keep what they had. -/
theorem lookup?_writeAll_of_forall_ne {table : Table} {key : ℕ}
    {transitions : List (Configuration × State)}
    (h : ∀ w ∈ transitions, table.packing.pack w.1 ≠ key) :
    (table.writeAll transitions).lookup? key = table.lookup? key := by
  induction transitions generalizing table with
  | nil => rfl
  | cons transition rest ih =>
    have hrest : ∀ w ∈ rest, (table.write transition).packing.pack w.1 ≠ key :=
      fun w hw => h w (List.mem_cons_of_mem _ hw)
    rw [writeAll_cons, ih hrest, lookup?_write,
      if_neg (h transition List.mem_cons_self)]

/-- The last write to a key decides. -/
theorem lookup?_writeAll_of_last {table : Table}
    {before after : List (Configuration × State)} {w : Configuration × State}
    (h : ∀ later ∈ after,
      table.packing.pack later.1 ≠ table.packing.pack w.1) :
    (table.writeAll (before ++ w :: after)).lookup? (table.packing.pack w.1) =
      some w.2 := by
  rw [writeAll_append, writeAll_cons, lookup?_writeAll_of_forall_ne]
  · rw [lookup?_write, packing_writeAll, if_pos rfl]
  · intro later hlater
    rw [packing_write, packing_writeAll]
    exact h later hlater

/-- Configurations that are not written keep what they had. -/
theorem next?_writeAll_of_forall_ne {table : Table} {c : Configuration}
    (hc : table.packing.Fits c) {transitions : List (Configuration × State)}
    (hfit : ∀ w ∈ transitions, table.packing.Fits w.1)
    (h : ∀ w ∈ transitions, w.1 ≠ c) :
    (table.writeAll transitions).next? c = table.next? c := by
  rw [next?, next?, packing_writeAll]
  apply lookup?_writeAll_of_forall_ne
  intro w hw hkey
  exact h w hw ((Packing.pack_inj (hfit w hw) hc).1 hkey)

/-- The last write to a configuration decides. -/
theorem next?_writeAll_of_last {table : Table}
    {before after : List (Configuration × State)} {c : Configuration} {s : State}
    (hc : table.packing.Fits c) (hfit : ∀ w ∈ after, table.packing.Fits w.1)
    (h : ∀ w ∈ after, w.1 ≠ c) :
    (table.writeAll (before ++ (c, s) :: after)).next? c = some s := by
  rw [next?, packing_writeAll]
  apply lookup?_writeAll_of_last
  intro w hw hkey
  exact h w hw ((Packing.pack_inj (hfit w hw) hc).1 hkey)

end Table

namespace Rule

/-- All that a build writes, in order. -/
def allTransitions (rule : Rule) : List (Configuration × State) :=
  rule.clauses.flatMap rule.transitions

theorem writeClauses_fst (rule : Rule) (done : ℕ) (table : Table)
    (clauses : List Clause) :
    (rule.writeClauses done table clauses).1 =
      table.writeAll (clauses.flatMap rule.transitions) := by
  induction clauses generalizing done table with
  | nil => rfl
  | cons clause rest ih =>
    rw [writeClauses, List.flatMap_cons, Table.writeAll_append]
    exact ih _ _

/-- A build writes all transitions of a well-formed rule into the table that it
starts from. -/
theorem build_eq (rule : Rule) (settings : Settings) :
    rule.build settings =
      match rule.fault? with
      | some fault => .error (.illFormed fault)
      | none =>
        (rule.initialTable settings).map (·.writeAll rule.allTransitions) := by
  rw [build, buildReporting]
  cases rule.fault? with
  | some fault => rfl
  | none =>
    cases rule.initialTable settings with
    | error e => rfl
    | ok table => simp only [Except.map, writeClauses_fst, allTransitions]

/-- A well-formed rule is built without filling in by writing all its
transitions into the blank table. -/
theorem build_eq_of_unmapped {rule : Rule} {settings : Settings}
    (hvalid : rule.validate = .ok ()) (hfill : settings.fill = .unmapped) :
    rule.build settings = .ok (rule.blankTable.writeAll rule.allTransitions) := by
  have hfault : rule.fault? = none := by
    rw [validate] at hvalid
    split at hvalid
    · cases hvalid
    · assumption
  rw [build_eq, hfault, initialTable, hfill]
  rfl

end Rule

end Cellular
