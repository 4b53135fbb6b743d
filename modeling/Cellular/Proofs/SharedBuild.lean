import Cellular.Proofs.Dispatch
import Cellular.Table.SharedBuild

/-!
# When a shared build ends

Every move of a shared build takes a clause one stage on, closes the queue, or is the
last one of a worker or of the driver, and so all runs are bounded.  If the assignments
of every clause can be counted, no worker fails, somebody can move until all have come to
an end, and the table is that of a build in order.  If those of some clause cannot, its
part is never made, and whatever the workers do, there is no table at the end.
-/

namespace Cellular

theorem Rule.canCount_eq_false_iff {count? : Odometer → Option ℕ} {rule : Rule} {place : ℕ} :
    rule.canCount count? place = false ↔
      ∃ clause, rule.clauses[place]? = some clause ∧ count? (rule.odometer clause) = none := by
  rw [canCount]
  cases rule.clauses[place]? with
  | none => simp
  | some clause => simp

namespace Dispatch

variable {rule : Rule} {d e : Dispatch} {place index : ℕ} {new : List (ℕ × Entries)}

theorem workers_of_driverMove? (h : d.driverMove? rule = some e) : e.workers = d.workers := by
  rcases driverMove?_cases h with ⟨_, -, rfl⟩ | ⟨-, -, rfl⟩ | ⟨_, _, -, -, rfl⟩ <;> rfl

/-- The driver hands out a clause or leaves it at those that it has handed out. -/
theorem sent_of_driverMove? (h : d.driverMove? rule = some e) :
    e.sent = d.sent ∨ e.written = d.written ∧ d.sent < rule.clauses.length := by
  rcases driverMove?_cases h with ⟨_, -, rfl⟩ | ⟨-, hsent, rfl⟩ | ⟨_, _, -, -, rfl⟩
  · exact Or.inl rfl
  · exact Or.inr ⟨rfl, lt_of_lt_of_le hsent (Nat.min_le_left _ _)⟩
  · exact Or.inl rfl

/-- A move of a worker leaves the others as they are. -/
theorem getElem?_workers_of_workerMove? {other : ℕ} (h : d.workerMove? rule index = some e)
    (hne : index ≠ other) : e.workers[other]? = d.workers[other]? := by
  rcases workerMove?_cases h with ⟨_, _, -, -, rfl⟩ | ⟨_, -, rfl⟩ | ⟨_, _, -, rfl⟩ <;>
    exact List.getElem?_set_ne hne

theorem length_workers_of_move (hmove : Move rule d new e) :
    e.workers.length = d.workers.length := by
  cases hmove with
  | write | handOut | receive => rfl
  | take hworkers | expand hworkers | deliver hworkers => simp [hworkers]

/-- When all clauses are handed out, this stays so, and the queue stays empty if it is. -/
theorem allSent_of_move (hmove : Move rule d new e) (hsent : d.sent = rule.clauses.length) :
    e.sent = rule.clauses.length ∧ (d.queue = [] → e.queue = []) := by
  cases hmove with
  | write | receive | expand | deliver => exact ⟨hsent, id⟩
  | handOut hlt => omega
  | take _ hqueue => exact ⟨hsent, fun hempty => absurd (hqueue.symm.trans hempty) (by simp)⟩

theorem written_of_workerMove? (h : d.workerMove? rule index = some e) :
    e.written = d.written := by
  rcases workerMove?_cases h with ⟨_, _, -, -, rfl⟩ | ⟨_, -, rfl⟩ | ⟨_, _, -, rfl⟩ <;> rfl

/-! ## Clauses that are not expanded -/

/-- The part of the clause at a place is not made, and so it is not written. -/
structure IsUnmade (place : ℕ) (d : Dispatch) : Prop where
  written_le : d.written ≤ place
  workers : ∀ part, .delivering place part ∉ d.workers
  channel : ∀ part, (place, part) ∉ d.channel
  pending : ∀ part, (place, part) ∉ d.pending

namespace IsUnmade

theorem start (rule : Rule) (workers : ℕ) (table : Table) (place : ℕ) :
    IsUnmade place (Dispatch.start rule workers table) where
  written_le := Nat.zero_le place
  workers part hmem := by cases List.eq_of_mem_replicate hmem
  channel _ := List.not_mem_nil
  pending _ := List.not_mem_nil

theorem of_driverMove? (h : d.IsUnmade place) (hmove : d.driverMove? rule = some e) :
    e.IsUnmade place := by
  rcases driverMove?_cases hmove with ⟨part, hpart, rfl⟩ | ⟨-, -, rfl⟩ |
    ⟨entry, rest, -, hchannel, rfl⟩
  · have hmem := mem_of_lookup_eq_some hpart
    refine ⟨?_, h.workers, h.channel, fun part hmem => ?_⟩
    · apply Nat.lt_of_le_of_ne h.written_le
      rintro rfl
      exact h.pending part hmem
    · exact h.pending part (List.mem_filter.1 hmem).1
  · exact ⟨h.written_le, h.workers, h.channel, h.pending⟩
  · have hentry := h.channel
    simp only [hchannel, List.mem_cons, not_or] at hentry
    refine ⟨h.written_le, h.workers, fun part => (hentry part).2, fun part hmem => ?_⟩
    rcases List.mem_cons.1 hmem with hnew | hmem
    · exact (hentry part).1 hnew
    · exact h.pending part hmem

theorem of_workerMove? (h : d.IsUnmade place) (hmove : d.workerMove? rule index = some e)
    (hexpands : d.workers[index]? ≠ some (.expanding place)) : e.IsUnmade place := by
  rcases workerMove?_cases hmove with ⟨other, rest, -, -, rfl⟩ | ⟨other, hworker, rfl⟩ |
    ⟨other, sent, hworker, rfl⟩
  · refine ⟨h.written_le, fun part hmem => ?_, h.channel, h.pending⟩
    rcases List.mem_or_eq_of_mem_set hmem with hmem | hnew
    · exact h.workers part hmem
    · cases hnew
  · refine ⟨h.written_le, fun part hmem => ?_, h.channel, h.pending⟩
    rcases List.mem_or_eq_of_mem_set hmem with hmem | hnew
    · exact h.workers part hmem
    · cases hnew
      exact hexpands hworker
  · refine ⟨h.written_le, fun part hmem => ?_, fun part hmem => ?_, h.pending⟩
    · rcases List.mem_or_eq_of_mem_set hmem with hmem | hnew
      · exact h.workers part hmem
      · cases hnew
    · rcases List.mem_append.1 hmem with hmem | hnew
      · exact h.channel part hmem
      · cases List.mem_singleton.1 hnew
        exact h.workers _ (List.mem_of_getElem? hworker)

end IsUnmade

end Dispatch

namespace SharedBuild

variable {count? : Odometer → Option ℕ} {rule : Rule} {workers : ℕ} {table : Table}
variable {b c : SharedBuild}

theorem mem_remaining_iff {index : ℕ} :
    index ∈ b.remaining ↔ index < b.dispatch.workers.length ∧ index ∉ b.departed := by
  simp [remaining]

theorem isFinished_iff {d : Dispatch} :
    d.isFinished rule = true ↔ d.written = rule.clauses.length :=
  beq_iff_eq

/-! ## What a move does -/

/-- The six kinds of move. -/
inductive Move (count? : Odometer → Option ℕ) (rule : Rule) (b : SharedBuild) :
    SharedBuild → Prop where
  | driver {d : Dispatch}
      (hopen : b.dispatch.sent = rule.clauses.length → b.closed = true)
      (hmove : b.dispatch.driverMove? rule = some d) :
      Move count? rule b { b with dispatch := d }
  | worker {index : ℕ} {d : Dispatch} (hindex : index ∉ b.departed)
      (hcount : ∀ place, b.dispatch.workers[index]? = some (.expanding place) →
        rule.canCount count? place = true)
      (hmove : b.dispatch.workerMove? rule index = some d) :
      Move count? rule b { b with dispatch := d }
  | close (hclosed : b.closed = false) (hsent : b.dispatch.sent = rule.clauses.length) :
      Move count? rule b { b with closed := true }
  | depart {index : ℕ} (hindex : index ∉ b.departed)
      (hworker : b.dispatch.workers[index]? = some .idle) (hclosed : b.closed = true)
      (hqueue : b.dispatch.queue = []) :
      Move count? rule b { b with departed := index :: b.departed }
  | fail {index place : ℕ} (hindex : index ∉ b.departed)
      (hworker : b.dispatch.workers[index]? = some (.expanding place))
      (hcount : rule.canCount count? place = false) :
      Move count? rule b { b with departed := index :: b.departed, failed := true }
  | stop (hstopped : b.stopped = false) (hunwritten : b.dispatch.written ≠ rule.clauses.length)
      (hwaiting : b.dispatch.driverMove? rule = none) (hremaining : b.remaining = []) :
      Move count? rule b { b with stopped := true }

theorem move_of_driverMove? (h : b.driverMove? rule = some c) : Move count? rule b c := by
  rw [driverMove?] at h
  split at h
  · cases h
  · rename_i hrunning
    rw [Bool.or_eq_true, not_or, Bool.not_eq_true, isFinished_iff] at hrunning
    split at h
    · rename_i hclose
      rw [Bool.and_eq_true, Bool.not_eq_true', beq_iff_eq] at hclose
      rw [Option.some.injEq] at h
      subst h
      exact .close hclose.1 hclose.2
    · rename_i hopen
      rw [Bool.and_eq_true, Bool.not_eq_true', beq_iff_eq, not_and', Bool.not_eq_false] at hopen
      split at h
      · rename_i hmove
        rw [Option.some.injEq] at h
        subst h
        exact .driver hopen hmove
      · rename_i hwaiting
        split at h
        · rename_i hremaining
          rw [Option.some.injEq] at h
          subst h
          exact .stop hrunning.1 hrunning.2 hwaiting (List.isEmpty_iff.1 hremaining)
        · cases h

theorem move_of_workerMove? {index : ℕ} (h : b.workerMove? count? rule index = some c) :
    Move count? rule b c := by
  simp only [workerMove?] at h
  split at h
  · cases h
  · rename_i hindex
    have hmoved : ∀ {moved}, (∀ place, b.dispatch.workers[index]? = some (.expanding place) →
          rule.canCount count? place = true) →
        (b.dispatch.workerMove? rule index).map (fun dispatch => { b with dispatch }) =
          some moved → Move count? rule b moved := by
      intro moved hcount hmap
      obtain ⟨d, hmove, rfl⟩ := Option.map_eq_some_iff.1 hmap
      exact .worker hindex hcount hmove
    split at h
    · rename_i hworker
      split at h
      · rename_i hdone
        rw [Bool.and_eq_true, List.isEmpty_iff] at hdone
        rw [Option.some.injEq] at h
        subst h
        exact .depart hindex hworker hdone.1 hdone.2
      · exact hmoved (fun place hplace => by simp [hworker] at hplace) h
    · rename_i place hworker
      split at h
      · rename_i hcount
        refine hmoved (fun other hother => ?_) h
        rw [hworker, Option.some.injEq, Worker.expanding.injEq] at hother
        exact hother ▸ hcount
      · rename_i hcount
        rw [Option.some.injEq] at h
        subst h
        exact .fail hindex hworker (Bool.not_eq_true _ ▸ hcount)
    · rename_i hother
      exact hmoved (fun place hplace => absurd hplace (hother place)) h

theorem move_of_step (h : Step count? rule b c) : Move count? rule b c := by
  obtain ⟨mover, hmove⟩ := h
  cases mover with
  | driver => exact move_of_driverMove? hmove
  | worker index => exact move_of_workerMove? hmove

/-! ## How many moves there are -/

/-- The moves that the clauses, the workers and the driver have before them. -/
def stages (rule : Rule) (b : SharedBuild) : ℕ :=
  b.dispatch.stages rule + b.remaining.length + (!b.closed).toNat + (!b.stopped).toNat

theorem remaining_of_dispatchMove {d : Dispatch} {new : List (ℕ × Entries)}
    (hmove : Dispatch.Move rule b.dispatch new d) :
    remaining { b with dispatch := d } = b.remaining := by
  rw [remaining, remaining, Dispatch.length_workers_of_move hmove]

/-- When a worker departs, one fewer remains. -/
theorem length_remaining_lt {index : ℕ} {worker : Worker} (hindex : index ∉ b.departed)
    (hworker : b.dispatch.workers[index]? = some worker) (failed : Bool) :
    (remaining { b with departed := index :: b.departed, failed }).length <
      b.remaining.length := by
  have hremaining : remaining { b with departed := index :: b.departed, failed } =
      b.remaining.filter (· ≠ index) := by
    simp only [remaining, List.filter_filter, List.mem_cons, not_or, Bool.decide_and]
  have hmem : index ∈ b.remaining :=
    mem_remaining_iff.2 ⟨(List.getElem?_eq_some_iff.1 hworker).1, hindex⟩
  rw [hremaining]
  exact List.length_filter_lt_length_iff_exists.2 ⟨index, hmem, by simp⟩

theorem stages_lt_of_step (h : Step count? rule b c) : c.stages rule < b.stages rule := by
  cases move_of_step h with
  | driver _ hmove =>
    have hlt := Dispatch.stages_lt_of_move (Dispatch.move_of_driverMove? hmove)
    have hremaining := remaining_of_dispatchMove (Dispatch.move_of_driverMove? hmove)
    simp only [stages, hremaining]
    omega
  | worker _ _ hmove =>
    have hlt := Dispatch.stages_lt_of_move (Dispatch.move_of_workerMove? hmove)
    have hremaining := remaining_of_dispatchMove (Dispatch.move_of_workerMove? hmove)
    simp only [stages, hremaining]
    omega
  | close hclosed =>
    simp [stages, remaining, hclosed]
  | depart hindex hworker =>
    have hlt := length_remaining_lt hindex hworker b.failed
    simp only [stages]
    omega
  | fail hindex hworker =>
    have hlt := length_remaining_lt hindex hworker true
    simp only [stages]
    omega
  | stop hstopped =>
    simp [stages, remaining, hstopped]

/-- A run has at most six moves for each clause, one for each worker and two more. -/
theorem length_le_of_run {states : List SharedBuild}
    (hsteps : (start rule workers table :: states).IsChain (Step count? rule)) :
    states.length ≤ 6 * rule.clauses.length + workers + 2 := by
  have hlength := Dispatch.length_le_of_isChain (stages rule) (fun _ _ => stages_lt_of_step)
    hsteps
  have hworkers : (start rule workers table).remaining.length ≤ workers := by
    apply (List.length_filter_le _ _).trans
    simp [start, Dispatch.start]
  have hstages : (start rule workers table).stages rule =
      6 * rule.clauses.length + (start rule workers table).remaining.length + 2 := by
    rw [← Dispatch.stages_start rule workers table]
    rfl
  omega

/-! ## The invariant -/

/-- Why a worker has departed: there was nothing left to take, or it failed and still has
the clause that it could not count. -/
def HasDeparted (b : SharedBuild) (index : ℕ) : Prop :=
  (b.closed = true ∧ b.dispatch.queue = [] ∧ b.dispatch.workers[index]? = some .idle) ∨
    (b.failed = true ∧ ∃ place, b.dispatch.workers[index]? = some (.expanding place))

/-- What holds at every moment of a run: without the ends it is a history, and the ends are
where they belong. -/
structure Invariant (count? : Odometer → Option ℕ) (rule : Rule) (workers : ℕ)
    (table : Table) (b : SharedBuild) : Prop where
  packing_eq : table.packing = rule.packing
  exists_history : ∃ log, Dispatch.History rule workers table log b.dispatch
  sent_of_closed : b.closed = true → b.dispatch.sent = rule.clauses.length
  closed_of_written : b.dispatch.written = rule.clauses.length →
    b.closed = true ∨ rule.clauses.length = 0
  hasDeparted : ∀ index ∈ b.departed, b.HasDeparted index
  exists_of_failed : b.failed = true →
    ∃ clause ∈ rule.clauses, count? (rule.odometer clause) = none
  failed_of_stopped : b.stopped = true → b.failed = true
  isUnmade : ∀ place, rule.canCount count? place = false → b.dispatch.IsUnmade place

namespace Invariant

theorem start (hpacking : table.packing = rule.packing) :
    Invariant count? rule workers table (SharedBuild.start rule workers table) where
  packing_eq := hpacking
  exists_history := ⟨[], .start⟩
  sent_of_closed h := by cases h
  closed_of_written h := Or.inr h.symm
  hasDeparted _ hmem := by cases hmem
  exists_of_failed h := by cases h
  failed_of_stopped h := by cases h
  isUnmade place _ := Dispatch.IsUnmade.start rule workers table place

theorem exists_log (h : Invariant count? rule workers table b) :
    ∃ log, Dispatch.Invariant rule workers table log b.dispatch := by
  obtain ⟨log, hlog⟩ := h.exists_history
  exact ⟨log, .of_history h.packing_eq hlog⟩

/-- A move of the build without the ends keeps the invariant if it does not change the
workers that have departed, writes no last clause before the queue is closed and makes no
part that cannot be counted. -/
theorem dispatchMove (h : Invariant count? rule workers table b) {d : Dispatch}
    {mover : Mover} (hmove : b.dispatch.move? rule mover = some d)
    (hdeparted : ∀ index ∈ b.departed, d.workers[index]? = b.dispatch.workers[index]?)
    (hwritten : d.written = rule.clauses.length →
      b.closed = true ∨ rule.clauses.length = 0)
    (hunmade : ∀ place, rule.canCount count? place = false → d.IsUnmade place) :
    Invariant count? rule workers table { b with dispatch := d } where
  packing_eq := h.packing_eq
  exists_history := by
    obtain ⟨log, hlog⟩ := h.exists_history
    exact ⟨_, hlog.step hmove⟩
  sent_of_closed hclosed :=
    (Dispatch.allSent_of_move (Dispatch.move_of_move? hmove) (h.sent_of_closed hclosed)).1
  closed_of_written := hwritten
  hasDeparted index hindex := by
    rw [HasDeparted, hdeparted index hindex]
    refine (h.hasDeparted index hindex).imp_left fun ⟨hclosed, hqueue, hworker⟩ => ?_
    have hsent := Dispatch.allSent_of_move (Dispatch.move_of_move? hmove)
      (h.sent_of_closed hclosed)
    exact ⟨hclosed, hsent.2 hqueue, hworker⟩
  exists_of_failed := h.exists_of_failed
  failed_of_stopped := h.failed_of_stopped
  isUnmade := hunmade

/-- If all workers have departed and none has failed, they are idle, and all clauses that are
not written are on their way to the driver or kept by it. -/
theorem idle_of_remaining_eq_nil (h : Invariant count? rule workers table b)
    (hfailed : b.failed = false) (hremaining : b.remaining = [])
    (hlength : 0 < b.dispatch.workers.length) :
    b.closed = true ∧ b.dispatch.queue = [] ∧
      b.dispatch.workers.filterMap Worker.place? = [] := by
  have hidle : ∀ index < b.dispatch.workers.length, b.closed = true ∧
      b.dispatch.queue = [] ∧ b.dispatch.workers[index]? = some .idle := by
    intro index hindex
    have hdeparted : index ∈ b.departed := by
      by_contra hmem
      have hleft := mem_remaining_iff.2 ⟨hindex, hmem⟩
      rw [hremaining] at hleft
      cases hleft
    refine (h.hasDeparted index hdeparted).resolve_right fun hlost => ?_
    rw [hfailed] at hlost
    cases hlost.1
  refine ⟨(hidle 0 hlength).1, (hidle 0 hlength).2.1, ?_⟩
  rw [List.filterMap_eq_nil_iff]
  intro worker hmem
  obtain ⟨index, hindex, rfl⟩ := List.mem_iff_getElem.1 hmem
  have hworker := (hidle index hindex).2.2
  rw [List.getElem?_eq_getElem hindex, Option.some.injEq] at hworker
  rw [hworker]
  rfl

/-- A driver that waits although no worker is left waits for the part of one that failed:
otherwise all clauses are handed out and none is on its way. -/
theorem failed_of_waiting (h : Invariant count? rule workers table b) (hworkers : 0 < workers)
    (hunwritten : b.dispatch.written ≠ rule.clauses.length)
    (hwaiting : b.dispatch.driverMove? rule = none) (hremaining : b.remaining = []) :
    b.failed = true := by
  obtain ⟨log, hlog⟩ := h.exists_log
  have hsent := hlog.sent_le
  have hle := hlog.written_le_sent
  have hlt : b.dispatch.written < rule.clauses.length := by omega
  have hlength : 0 < b.dispatch.workers.length := by
    rw [hlog.workers_length]
    omega
  by_contra hfailed
  obtain ⟨hclosed, hqueue, hbusy⟩ :=
    h.idle_of_remaining_eq_nil (Bool.not_eq_true _ ▸ hfailed) hremaining hlength
  obtain ⟨hpending, -, hchannel⟩ :=
    Dispatch.Invariant.waiting_of_driverMove?_eq_none hlt hwaiting
  have hheld := hlog.mem_held_of_lt ((h.sent_of_closed hclosed).symm ▸ hlt)
  rw [Dispatch.held, hqueue, hbusy, hchannel] at hheld
  exact lookup_eq_none_iff_not_mem_keys.1 hpending hheld

/-- Every move keeps the invariant. -/
theorem step (h : Invariant count? rule workers table b) (hworkers : 0 < workers)
    (hstep : Step count? rule b c) :
    Invariant count? rule workers table c := by
  cases move_of_step hstep with
  | @driver d hopen hmove =>
    have hmoved : b.dispatch.move? rule .driver = some d := hmove
    refine h.dispatchMove hmoved (fun _ _ => ?_) (fun hwritten => Or.inl ?_)
      fun place hplace => (h.isUnmade place hplace).of_driverMove? hmove
    · rw [Dispatch.workers_of_driverMove? hmove]
    · -- The last clause is handed out before it is written.
      obtain ⟨log, hlog⟩ := h.exists_log
      have hnext := hlog.move h.packing_eq (Dispatch.move_of_move? hmoved)
      have hwrittenLe := hlog.written_le_sent
      have hnextLe := hnext.written_le_sent
      have hsent := hnext.sent_le
      apply hopen
      rcases Dispatch.sent_of_driverMove? hmove with hsame | ⟨hsame, hlt⟩ <;> omega
  | @worker index d hindex hcount hmove =>
    have hmoved : b.dispatch.move? rule (.worker index) = some d := hmove
    refine h.dispatchMove hmoved (fun other hother => ?_) (fun hwritten => ?_)
      fun place hplace => ?_
    · apply Dispatch.getElem?_workers_of_workerMove? hmove
      rintro rfl
      exact hindex hother
    · rw [Dispatch.written_of_workerMove? hmove] at hwritten
      exact h.closed_of_written hwritten
    · apply (h.isUnmade place hplace).of_workerMove? hmove
      intro hworker
      rw [hcount place hworker] at hplace
      cases hplace
  | close hclosed hsent =>
    refine ⟨h.packing_eq, h.exists_history, fun _ => hsent, fun _ => Or.inl rfl,
      fun index hindex => ?_, h.exists_of_failed, h.failed_of_stopped, h.isUnmade⟩
    exact (h.hasDeparted index hindex).imp_left fun hdone => ⟨rfl, hdone.2⟩
  | depart hindex hworker hclosed hqueue =>
    refine ⟨h.packing_eq, h.exists_history, h.sent_of_closed, h.closed_of_written, ?_,
      h.exists_of_failed, h.failed_of_stopped, h.isUnmade⟩
    exact List.forall_mem_cons.2 ⟨Or.inl ⟨hclosed, hqueue, hworker⟩, h.hasDeparted⟩
  | @fail index place hindex hworker hcount =>
    refine ⟨h.packing_eq, h.exists_history, h.sent_of_closed, h.closed_of_written, ?_,
      fun _ => ?_, fun _ => rfl, h.isUnmade⟩
    · refine List.forall_mem_cons.2 ⟨Or.inr ⟨rfl, place, hworker⟩, fun other hother => ?_⟩
      exact (h.hasDeparted other hother).imp_right fun hlost => ⟨rfl, hlost.2⟩
    · obtain ⟨clause, hclause, hnone⟩ := Rule.canCount_eq_false_iff.1 hcount
      exact ⟨clause, List.mem_of_getElem? hclause, hnone⟩
  | stop hstopped hunwritten hwaiting hremaining =>
    exact ⟨h.packing_eq, h.exists_history, h.sent_of_closed, h.closed_of_written, h.hasDeparted,
      h.exists_of_failed, fun _ => h.failed_of_waiting hworkers hunwritten hwaiting hremaining,
      h.isUnmade⟩

/-- So it holds in every run. -/
theorem of_reachable (hworkers : 0 < workers) (hpacking : table.packing = rule.packing)
    (h : Reachable count? rule workers table b) : Invariant count? rule workers table b := by
  induction h with
  | start => exact start hpacking
  | step _ hstep ih => exact ih.step hworkers hstep

/-- A worker that can move in the build without the ends can move in the one with them. -/
theorem exists_step_of_workerMove? (h : Invariant count? rule workers table b)
    (hfailed : b.failed = false) {index : ℕ} {d : Dispatch}
    (hmove : b.dispatch.workerMove? rule index = some d) : ∃ c, Step count? rule b c := by
  have hindex : index ∉ b.departed := by
    intro hmem
    rcases h.hasDeparted index hmem with ⟨-, hqueue, hworker⟩ | ⟨hlost, -⟩
    · rw [Dispatch.workerMove?, hworker, hqueue] at hmove
      cases hmove
    · rw [hfailed] at hlost
      cases hlost
  have hsome : (b.workerMove? count? rule index).isSome := by
    simp only [workerMove?, if_neg hindex, hmove]
    split
    · split <;> rfl
    · split <;> rfl
    · rfl
  obtain ⟨c, hc⟩ := Option.isSome_iff_exists.1 hsome
  exact ⟨c, .worker index, hc⟩

theorem exists_step_of_driverMove? (hstopped : b.stopped = false)
    (hunwritten : b.dispatch.written ≠ rule.clauses.length) {d : Dispatch}
    (hmove : b.dispatch.driverMove? rule = some d) : ∃ c, Step count? rule b c := by
  have hrunning : ¬ (b.stopped || b.dispatch.isFinished rule) = true := by
    rw [Bool.or_eq_true, isFinished_iff, hstopped]
    exact not_or.2 ⟨Bool.false_ne_true, hunwritten⟩
  have hsome : (b.driverMove? rule).isSome := by
    rw [driverMove?, if_neg hrunning]
    split
    · rfl
    · rw [hmove]
      rfl
  obtain ⟨c, hc⟩ := Option.isSome_iff_exists.1 hsome
  exact ⟨c, .driver, hc⟩

/-- When all clauses are written, every worker that is left departs. -/
theorem exists_step_of_written (h : Invariant count? rule workers table b)
    (hwritten : b.dispatch.written = rule.clauses.length) (hremaining : b.remaining ≠ []) :
    ∃ c, Step count? rule b c := by
  obtain ⟨log, hlog⟩ := h.exists_log
  obtain ⟨index, hmem⟩ := List.exists_mem_of_ne_nil _ hremaining
  obtain ⟨hindex, hdeparted⟩ := mem_remaining_iff.1 hmem
  have hlength := hlog.held_length
  have hsent := hlog.sent_le
  have hheld : b.dispatch.held = [] := List.eq_nil_of_length_eq_zero (by omega)
  simp only [Dispatch.held, List.append_eq_nil_iff] at hheld
  obtain ⟨⟨⟨hqueue, hbusy⟩, -⟩, -⟩ := hheld
  have hclosed : b.closed = true := by
    refine (h.closed_of_written hwritten).resolve_right fun hnone => ?_
    rw [hlog.workers_length, hnone] at hindex
    omega
  have hworker : b.dispatch.workers[index]? = some .idle := by
    rw [List.getElem?_eq_getElem hindex, Option.some.injEq]
    have hplace := List.filterMap_eq_nil_iff.1 hbusy _ (List.getElem_mem hindex)
    cases hworker : b.dispatch.workers[index] with
    | idle => rfl
    | expanding place | delivering place part =>
      rw [hworker] at hplace
      cases hplace
  refine ⟨{ b with departed := index :: b.departed }, .worker index, ?_⟩
  simp [move?, workerMove?, hdeparted, hworker, hclosed, hqueue]

/-- Unless a worker has failed, somebody can move until all have come to an end. -/
theorem exists_step (h : Invariant count? rule workers table b) (hworkers : 0 < workers)
    (hfailed : b.failed = false) (hended : b.hasEnded rule = false) :
    ∃ c, Step count? rule b c := by
  have hstopped : b.stopped = false := by
    by_contra hstopped
    rw [h.failed_of_stopped (Bool.not_eq_false _ ▸ hstopped)] at hfailed
    cases hfailed
  by_cases hwritten : b.dispatch.written = rule.clauses.length
  · apply h.exists_step_of_written hwritten
    intro hremaining
    rw [hasEnded, isFinished_iff.2 hwritten, hremaining, Bool.or_true] at hended
    cases hended
  · obtain ⟨log, hlog⟩ := h.exists_log
    have hsent := hlog.sent_le
    have hle := hlog.written_le_sent
    obtain ⟨d, mover, hmove⟩ := hlog.exists_step hworkers (by omega)
    cases mover with
    | driver => exact exists_step_of_driverMove? hstopped hwritten hmove
    | worker index => exact h.exists_step_of_workerMove? hfailed hmove

/-- A table at the end is that of a build in order, and all could be counted. -/
theorem eq_of_result? (h : Invariant count? rule workers table b) {final : Table}
    (hresult : b.result? rule = some final) :
    (∀ clause ∈ rule.clauses, count? (rule.odometer clause) ≠ none) ∧
      final = (rule.writeClauses 0 table rule.clauses).1 := by
  rw [result?, Option.ite_none_right_eq_some] at hresult
  obtain ⟨hended, hfinal⟩ := hresult
  rw [Bool.and_eq_true, Bool.not_eq_true', hasEnded, Bool.and_eq_true, Bool.or_eq_true,
    isFinished_iff] at hended
  obtain ⟨⟨hdone, -⟩, hfailed⟩ := hended
  have hwritten : b.dispatch.written = rule.clauses.length := by
    apply hdone.resolve_left
    intro hstopped
    rw [h.failed_of_stopped hstopped] at hfailed
    cases hfailed
  obtain ⟨log, hlog⟩ := h.exists_log
  constructor
  · intro clause hclause hnone
    obtain ⟨place, hplace⟩ := List.mem_iff_getElem?.1 hclause
    have hunmade := h.isUnmade place (Rule.canCount_eq_false_iff.2 ⟨clause, hplace, hnone⟩)
    have hlt := (List.getElem?_eq_some_iff.1 hplace).1
    have hle := hunmade.written_le
    omega
  · rw [← Option.some.inj hfinal, hlog.table_eq, hwritten, Rule.tableAfter_length]

theorem eq_of_leadsTo (h : Invariant count? rule workers table b) (hworkers : 0 < workers)
    {final : Table} (hleads : LeadsTo count? rule final b) :
    (∀ clause ∈ rule.clauses, count? (rule.odometer clause) ≠ none) ∧
      final = (rule.writeClauses 0 table rule.clauses).1 := by
  induction hleads with
  | ended hresult => exact h.eq_of_result? hresult
  | step hmove _ ih =>
    obtain ⟨c, hstep⟩ := hmove
    exact ih c hstep (h.step hworkers hstep)

/-- If all assignments can be counted, every run comes to its end.  The induction is on the
number of moves that are left. -/
theorem leadsTo (h : Invariant count? rule workers table b) (hworkers : 0 < workers)
    (hcount : ∀ clause ∈ rule.clauses, count? (rule.odometer clause) ≠ none) :
    LeadsTo count? rule (rule.writeClauses 0 table rule.clauses).1 b := by
  induction hstages : b.stages rule using Nat.strong_induction_on generalizing b with
  | _ n ih =>
    have hfailed : b.failed = false := by
      by_contra hfailed
      obtain ⟨clause, hclause, hnone⟩ := h.exists_of_failed (Bool.not_eq_false _ ▸ hfailed)
      exact hcount clause hclause hnone
    cases hended : b.hasEnded rule with
    | true =>
      have hresult : b.result? rule = some b.dispatch.table := by
        rw [result?, hended, hfailed]
        rfl
      rw [← (h.eq_of_result? hresult).2]
      exact .ended hresult
    | false =>
      refine .step (h.exists_step hworkers hfailed hended) fun c hstep => ?_
      exact ih _ (hstages ▸ stages_lt_of_step hstep) (h.step hworkers hstep) rfl

end Invariant

/-- **A shared build ends with the table of a build in order, or not at all.**  If the
assignments of all clauses can be counted, every run ends with the table that is written
in order.  If those of some clause cannot, not all runs lead to a table. -/
theorem leadsTo_iff (hworkers : 0 < workers) (hpacking : table.packing = rule.packing)
    {final : Table} :
    LeadsTo count? rule final (start rule workers table) ↔
      (∀ clause ∈ rule.clauses, count? (rule.odometer clause) ≠ none) ∧
        final = (rule.writeClauses 0 table rule.clauses).1 := by
  have hstart : Invariant count? rule workers table (start rule workers table) :=
    .of_reachable hworkers hpacking .start
  constructor
  · exact hstart.eq_of_leadsTo hworkers
  · rintro ⟨hcount, rfl⟩
    exact hstart.leadsTo hworkers hcount

/-- If the assignments of some clause cannot be counted, no run gives a table at all. -/
theorem eq_of_result?_of_reachable (hworkers : 0 < workers)
    (hpacking : table.packing = rule.packing) (h : Reachable count? rule workers table b)
    {final : Table} (hresult : b.result? rule = some final) :
    (∀ clause ∈ rule.clauses, count? (rule.odometer clause) ≠ none) ∧
      final = (rule.writeClauses 0 table rule.clauses).1 :=
  (Invariant.of_reachable hworkers hpacking h).eq_of_result? hresult

end SharedBuild

end Cellular
