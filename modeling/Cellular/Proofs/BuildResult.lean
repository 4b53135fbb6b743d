import Cellular.Proofs.Count
import Cellular.Proofs.SharedBuild

/-!
# What comes of a build

A rule that does not pass the check and a rule without room for the table to start from
are refused with a reason.  All others are built if the assignments of their clauses can
be counted, whether the clauses are written in order or shared out, and in both cases the
table is the same.  If the assignments of some clause cannot be counted, nothing comes of
the build: it ends at the count, and a build that is shared out ends without a table or
stops.
-/

namespace Cellular

theorem Settings.usedWorkers_pos {settings : Settings} {workers : ℕ}
    (h : settings.usedWorkers = some workers) : 0 < workers := by
  obtain ⟨asked, -, rfl⟩ := Option.map_eq_some_iff.1 h
  exact Nat.lt_of_lt_of_le Nat.zero_lt_one (Nat.le_max_left 1 _)

namespace Rule

variable {rule : Rule} {settings : Settings}

theorem forall_total?_ne_none_iff {clauses : List Clause} :
    (∀ clause ∈ clauses, (rule.odometer clause).total? ≠ none) ↔
      ∀ clause ∈ clauses, ¬ ExceedWord (rule.domains clause) :=
  forall₂_congr fun _ _ => not_congr Odometer.total?_eq_none_iff

theorem writeCounting?_eq_some_iff {clauses : List Clause} {table final : Table} :
    (∃ totals, rule.writeCounting? table clauses = some (final, totals)) ↔
      (∀ clause ∈ clauses, (rule.odometer clause).total? ≠ none) ∧
        final = table.writeAll (clauses.flatMap rule.transitions) := by
  rw [forall_total?_ne_none_iff]
  constructor
  · rintro ⟨totals, hwrite⟩
    have hfit : ∀ clause ∈ clauses, ¬ ExceedWord (rule.domains clause) := by
      intro clause hclause hexceed
      rw [writeCounting?_eq_none hclause hexceed] at hwrite
      cases hwrite
    rw [writeCounting?_eq_some hfit, Option.some.injEq, Prod.mk.injEq] at hwrite
    exact ⟨hfit, hwrite.1.symm⟩
  · rintro ⟨hfit, rfl⟩
    exact ⟨_, writeCounting?_eq_some hfit table⟩

/-! ## The ways of a build -/

theorem buildsTo_of_fault {fault : RuleFault} (hfault : rule.fault? = some fault)
    {result : Except BuildError Table} :
    rule.BuildsTo settings result ↔ result = .error (.illFormed fault) := by
  constructor
  · intro h
    cases h with
    | illFormed hother =>
      rw [hfault, Option.some.injEq] at hother
      rw [hother]
    | noRoom hother | inOrder hother | shared hother =>
      rw [hfault] at hother
      cases hother
  · rintro rfl
    exact .illFormed hfault

theorem buildsTo_of_noRoom {e : BuildError} (hfault : rule.fault? = none)
    (hinitial : rule.initialTable settings = .error e) {result : Except BuildError Table} :
    rule.BuildsTo settings result ↔ result = .error e := by
  constructor
  · intro h
    cases h with
    | illFormed hother =>
      rw [hfault] at hother
      cases hother
    | noRoom _ hother =>
      rw [hinitial, Except.error.injEq] at hother
      rw [hother]
    | inOrder _ hother | shared _ hother =>
      rw [hinitial] at hother
      cases hother
  · rintro rfl
    exact .noRoom hfault hinitial

/-- A shared build comes to the table of a build in order that counts. -/
theorem leadsTo_iff_writeCounting? {workers : ℕ} {initial table : Table} (hworkers : 0 < workers)
    (hinitial : rule.initialTable settings = .ok initial) :
    SharedBuild.LeadsTo Odometer.total? rule table (.start rule workers initial) ↔
      ∃ totals, rule.writeCounting? initial rule.clauses = some (table, totals) := by
  rw [SharedBuild.leadsTo_iff hworkers (packing_of_initialTable hinitial),
    writeCounting?_eq_some_iff, writeClauses_fst]

theorem buildsTo_of_initialTable {initial : Table} (hfault : rule.fault? = none)
    (hinitial : rule.initialTable settings = .ok initial) {result : Except BuildError Table} :
    rule.BuildsTo settings result ↔
      ∃ table totals, rule.writeCounting? initial rule.clauses = some (table, totals) ∧
        result = .ok table := by
  constructor
  · intro h
    cases h with
    | illFormed hother =>
      rw [hfault] at hother
      cases hother
    | noRoom _ hother =>
      rw [hinitial] at hother
      cases hother
    | inOrder _ hother _ hwrite =>
      rw [hinitial, Except.ok.injEq] at hother
      subst hother
      exact ⟨_, _, hwrite, rfl⟩
    | shared _ hother hworkers hleads =>
      rw [hinitial, Except.ok.injEq] at hother
      subst hother
      rw [leadsTo_iff_writeCounting? (Settings.usedWorkers_pos hworkers) hinitial] at hleads
      obtain ⟨totals, hwrite⟩ := hleads
      exact ⟨_, totals, hwrite, rfl⟩
  · rintro ⟨table, totals, hwrite, rfl⟩
    cases hworkers : settings.usedWorkers with
    | none => exact .inOrder hfault hinitial hworkers hwrite
    | some workers =>
      apply BuildsTo.shared hfault hinitial hworkers
      rw [leadsTo_iff_writeCounting? (Settings.usedWorkers_pos hworkers) hinitial]
      exact ⟨totals, hwrite⟩

/-- Sharing out does not change what comes of a build: it is what comes of a build in order
that counts, and nothing if that ends at a count. -/
theorem buildsTo_iff {result : Except BuildError Table} :
    rule.BuildsTo settings result ↔
      ∃ counted, rule.buildCounting? settings = some counted ∧
        counted.map Prod.fst = result := by
  rw [buildCounting?]
  cases hfault : rule.fault? with
  | some fault =>
    rw [buildsTo_of_fault hfault]
    simp [Except.map, eq_comm]
  | none =>
    cases hinitial : rule.initialTable settings with
    | error e =>
      rw [buildsTo_of_noRoom hfault hinitial]
      simp [Except.map, eq_comm]
    | ok initial =>
      rw [buildsTo_of_initialTable hfault hinitial]
      simp [Except.map, eq_comm]

/-! ## Results -/

theorem map_fst_of_buildCounting? {counted : Except BuildError (Table × List ℕ)}
    (h : rule.buildCounting? settings = some counted) :
    counted.map Prod.fst = rule.build settings := by
  rw [buildCounting?] at h
  rw [build_eq]
  cases hfault : rule.fault? with
  | some fault =>
    rw [hfault] at h
    cases h
    rfl
  | none =>
    cases hinitial : rule.initialTable settings with
    | error e =>
      rw [hfault, hinitial] at h
      cases h
      rfl
    | ok initial =>
      simp only [hfault, hinitial] at h
      obtain ⟨⟨final, totals⟩, hwrite, rfl⟩ := Option.map_eq_some_iff.1 h
      obtain ⟨-, rfl⟩ := writeCounting?_eq_some_iff.1 ⟨totals, hwrite⟩
      rfl

/-- What comes of a build is what comes of it without counting, if it does not end at a
count. -/
theorem buildsTo_iff_build_eq {result : Except BuildError Table} :
    rule.BuildsTo settings result ↔
      rule.build settings = result ∧ rule.buildCounting? settings ≠ none := by
  rw [buildsTo_iff]
  constructor
  · rintro ⟨counted, hcounted, rfl⟩
    exact ⟨(map_fst_of_buildCounting? hcounted).symm, hcounted ▸ Option.some_ne_none counted⟩
  · rintro ⟨rfl, hsome⟩
    obtain ⟨counted, hcounted⟩ := Option.ne_none_iff_exists'.1 hsome
    exact ⟨counted, hcounted, map_fst_of_buildCounting? hcounted⟩

theorem buildsTo_error_iff {e : BuildError} :
    rule.BuildsTo settings (.error e) ↔ rule.BuildBreaks settings e := by
  rw [buildsTo_iff_build_eq, ← build_eq_error_iff, and_iff_left_iff_imp]
  intro herror hnone
  obtain ⟨-, table, htable⟩ := buildCounting?_eq_none_iff.1 hnone
  rw [herror] at htable
  cases htable

theorem exists_buildsTo_ok_iff :
    (∃ table, rule.BuildsTo settings (.ok table)) ↔ rule.IsWellFormed ∧
      ¬ (settings.fill = .identity ∧ settings.fillLimit < rule.stateCount ^ 9) ∧
      ∀ clause ∈ rule.clauses, ¬ ExceedWord (rule.domains clause) := by
  simp only [buildsTo_iff_build_eq, exists_and_right]
  rw [← and_assoc, ← exists_build_eq_ok_iff, Ne, buildCounting?_eq_none_iff]
  refine and_congr_right fun hbuild => ?_
  simp only [hbuild, and_true, not_exists, not_and]

/-- Whatever a run of a shared build gives at its end is what comes of the build. -/
theorem buildsTo_of_reachable {initial table : Table} {workers : ℕ} {b : SharedBuild}
    (hvalid : rule.validate = .ok ()) (hinitial : rule.initialTable settings = .ok initial)
    (hworkers : settings.usedWorkers = some workers)
    (h : SharedBuild.Reachable Odometer.total? rule workers initial b)
    (hresult : b.result? rule = some table) : rule.BuildsTo settings (.ok table) := by
  obtain ⟨hcount, rfl⟩ := SharedBuild.eq_of_result?_of_reachable
    (Settings.usedWorkers_pos hworkers) (packing_of_initialTable hinitial) h hresult
  rw [buildsTo_of_initialTable (validate_eq_ok_iff.1 hvalid) hinitial]
  obtain ⟨totals, hwrite⟩ := writeCounting?_eq_some_iff.2 ⟨hcount, writeClauses_fst rule 0 _ _⟩
  exact ⟨_, totals, hwrite, rfl⟩

/-- In arithmetic that wraps around, every shared build ends with the table of a build in
order. -/
theorem leadsTo_of_build {initial table : Table} {workers : ℕ}
    (hbuild : rule.build settings = .ok table)
    (hinitial : rule.initialTable settings = .ok initial)
    (hworkers : settings.usedWorkers = some workers) :
    SharedBuild.LeadsTo (fun odometer => some odometer.totalWord.toNat) rule table
      (.start rule workers initial) := by
  obtain ⟨-, other, hother, rfl⟩ := build_eq_ok_iff.1 hbuild
  rw [hinitial, Except.ok.injEq] at hother
  rw [SharedBuild.leadsTo_iff (Settings.usedWorkers_pos hworkers)
    (packing_of_initialTable hinitial), writeClauses_fst, hother]
  exact ⟨fun _ _ => Option.some_ne_none _, rfl⟩

/-- **What comes of a build.**  The check accepts the well-formed rules, and of every other
rule it names the first fault.  A build fails with that fault, or, for a well-formed rule,
because there are more configurations than may be filled in.  Otherwise it ends with the
table of a build without counts if the assignments of all clauses can be counted, and
without a result if not, whether the clauses are shared out or not, and then whoever makes
each move.  In arithmetic that wraps around nothing ends at a count, and the table comes of
every build. -/
theorem check_and_build_name_first_fault (rule : Rule) :
    (rule.validate = .ok () ↔ rule.IsWellFormed) ∧
    (∀ fault, rule.validate = .error fault ↔ rule.Breaks fault) ∧
    ∀ settings,
      (∀ e, rule.BuildsTo settings (.error e) ↔ rule.BuildBreaks settings e) ∧
      ((∃ table, rule.BuildsTo settings (.ok table)) ↔ rule.IsWellFormed ∧
        ¬ (settings.fill = .identity ∧ settings.fillLimit < rule.stateCount ^ 9) ∧
        ∀ clause ∈ rule.clauses, ¬ ExceedWord (rule.domains clause)) ∧
      (∀ result, rule.BuildsTo settings result ↔
        rule.build settings = result ∧ rule.buildCounting? settings ≠ none) ∧
      (∀ initial table workers b, rule.validate = .ok () →
        rule.initialTable settings = .ok initial → settings.usedWorkers = some workers →
        SharedBuild.Reachable Odometer.total? rule workers initial b →
        b.result? rule = some table → rule.BuildsTo settings (.ok table)) ∧
      (∀ e, rule.build settings = .error e ↔ rule.BuildBreaks settings e) ∧
      ((∃ table, rule.build settings = .ok table) ↔ rule.IsWellFormed ∧
        ¬ (settings.fill = .identity ∧ settings.fillLimit < rule.stateCount ^ 9)) ∧
      ∀ initial table workers, rule.build settings = .ok table →
        rule.initialTable settings = .ok initial → settings.usedWorkers = some workers →
        SharedBuild.LeadsTo (fun odometer => some odometer.totalWord.toNat) rule table
          (.start rule workers initial) :=
  ⟨validate_eq_ok_iff_isWellFormed, fun _ => validate_eq_error_iff, fun _ =>
    ⟨fun _ => buildsTo_error_iff, exists_buildsTo_ok_iff, fun _ => buildsTo_iff_build_eq,
      fun _ _ _ _ => buildsTo_of_reachable, fun _ => build_eq_error_iff, exists_build_eq_ok_iff, fun _ _ _ => leadsTo_of_build⟩⟩

/-- A well-formed rule with room for its table of which nothing comes, with workers or
without: its clause has `2 ^ 128` assignments. -/
theorem crowded_is_not_built :
    (crowded 65536 [0]).IsWellFormed ∧ (crowded 65536 [0]).validate = .ok () ∧
      ∀ workers result, ¬ (crowded 65536 [0]).BuildsTo { workers := workers } result := by
  have hlast : ∀ s ∈ [0], s < 2 := List.forall_mem_singleton.2 (by decide)
  have hvalid := @validate_crowded 65536 [0] hlast
  have hexceed := (@exceedWord_crowded_iff 65536 [0] (by decide) (Nat.le_refl 1)).2 (by decide)
  refine ⟨validate_eq_ok_iff_isWellFormed.1 hvalid, hvalid, fun workers result hresult => ?_⟩
  refine (buildsTo_iff_build_eq.1 hresult).2 (buildCounting?_eq_none_iff.2 ⟨?_, ?_⟩)
  · exact ⟨crowdedClause, List.mem_singleton_self _, hexceed⟩
  · exact ⟨_, build_eq_of_unmapped hvalid rfl⟩

/-- The faults of fields come before a next state that no input binds, here in a
clause in which a variable without a declaration stands after a value that is no
state. -/
example :
    ({ declarations := InsertionMap.empty.insert "a" [0, 5, 7]
       clauses := [⟨.state 0, ⟨[.var 0, .var 1, .state 0, .state 0, .state 0, .state 0,
         .state 0, .state 0], rfl⟩, .var 2, 4⟩] } : Rule).validate =
      .error (.clause 0 4 (.stateOutOfRange 5 2)) := by
  decide

end Rule

end Cellular
