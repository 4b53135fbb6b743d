import Mathlib.Algebra.GroupWithZero.Nat
import Mathlib.Data.List.Basic
import Mathlib.Tactic.ByContra
import Cellular.Proofs.Part
import Cellular.Proofs.Reading

/-!
# A build that is shared out is a build in order

Parts may arrive in any order, but the driver writes them in the order of the
clauses.  The invariant behind this says where every clause is that was handed
out: in the queue, with one worker, in the channel, kept by the driver or
written, and in one of these places only.  As the window bounds the number of
clauses that are handed out and not yet written, it bounds the channel and the
kept parts as well.
-/

namespace Cellular

namespace Worker

/-- The clause that a worker is busy with. -/
def place? : Worker → Option ℕ
  | idle => none
  | expanding place => some place
  | delivering place _ => some place

/-- The part that a worker is about to send. -/
def part? : Worker → Option (ℕ × Entries)
  | delivering place part => some (place, part)
  | _ => none

/-- The moves that a clause which a worker is busy with has before it: it is expanded,
sent, received and written. -/
def stages : Worker → ℕ
  | idle => 0
  | expanding _ => 4
  | delivering _ _ => 3

end Worker

namespace Dispatch

variable {rule : Rule} {workers : ℕ} {table : Table}
variable {log new : List (ℕ × Entries)} {d e : Dispatch}

/-- The clauses that are handed out and not yet written, by where they are. -/
def held (d : Dispatch) : List ℕ :=
  d.queue ++ d.workers.filterMap Worker.place? ++ d.channel.map Prod.fst ++
    d.pending.map Prod.fst

/-- The parts that are made and not yet written. -/
def parts (d : Dispatch) : List (ℕ × Entries) :=
  d.workers.filterMap Worker.part? ++ d.channel ++ d.pending

/-- The part that a move writes, if it writes one, with its clause. -/
def writes (d : Dispatch) : Mover → List (ℕ × Entries)
  | .driver => ((d.pending.lookup d.written).map (d.written, ·)).toList
  | .worker _ => []

/-- A run from the start, with the parts written on the way. -/
inductive History (rule : Rule) (workers : ℕ) (table : Table) :
    List (ℕ × Entries) → Dispatch → Prop where
  | start : History rule workers table [] (start rule workers table)
  | step {log : List (ℕ × Entries)} {d e : Dispatch} {mover : Mover}
      (h : History rule workers table log d)
      (hmove : d.move? rule mover = some e) :
      History rule workers table (log ++ d.writes mover) e

theorem reachable_iff_exists_history :
    Reachable rule workers table d ↔ ∃ log, History rule workers table log d := by
  constructor
  · intro h
    induction h with
    | start => exact ⟨[], .start⟩
    | step _ hstep ih =>
      obtain ⟨log, hlog⟩ := ih
      obtain ⟨mover, hmove⟩ := hstep
      exact ⟨_, hlog.step hmove⟩
  · rintro ⟨log, h⟩
    induction h with
    | start => exact .start
    | step _ hmove ih => exact ih.step ⟨_, hmove⟩

/-- Every schedule is a run. -/
theorem exists_history_run (schedule : List Mover)
    (h : History rule workers table log d) :
    ∃ log, History rule workers table log (run rule schedule d) := by
  induction schedule generalizing log d with
  | nil => exact ⟨log, h⟩
  | cons mover rest ih =>
    rw [run, List.foldl_cons]
    cases hmove : d.move? rule mover with
    | none => exact ih h
    | some next => exact ih (h.step hmove)

/-! ## What a move does -/

/-- The six kinds of move, with the parts they write. -/
inductive Move (rule : Rule) (d : Dispatch) :
    List (ℕ × Entries) → Dispatch → Prop where
  | write {part : Entries} (hpart : d.pending.lookup d.written = some part) :
      Move rule d [(d.written, part)] (d.writePart rule part)
  | handOut (hsent : d.sent < min rule.clauses.length (d.written + d.window)) :
      Move rule d [] { d with queue := d.queue ++ [d.sent], sent := d.sent + 1 }
  | receive {entry : ℕ × Entries} {rest : List (ℕ × Entries)}
      (hchannel : d.channel = entry :: rest) :
      Move rule d [] { d with channel := rest, pending := entry :: d.pending }
  | take {before after : List Worker} {place : ℕ} {rest : List ℕ}
      (hworkers : d.workers = before ++ .idle :: after)
      (hqueue : d.queue = place :: rest) :
      Move rule d [] { d with
        queue := rest
        workers := before ++ .expanding place :: after }
  | expand {before after : List Worker} {place : ℕ}
      (hworkers : d.workers = before ++ .expanding place :: after) :
      Move rule d [] { d with
        workers := before ++ .delivering place (rule.partAt place) :: after }
  | deliver {before after : List Worker} {place : ℕ} {part : Entries}
      (hworkers : d.workers = before ++ .delivering place part :: after) :
      Move rule d [] { d with
        channel := d.channel ++ [(place, part)]
        workers := before ++ .idle :: after }

private theorem exists_split_of_getElem? {all : List Worker} {index : ℕ}
    {worker : Worker} (h : all[index]? = some worker) :
    ∃ before after, all = before ++ worker :: after ∧
      ∀ next, all.set index next = before ++ next :: after := by
  obtain ⟨hindex, hworker⟩ := List.getElem?_eq_some_iff.1 h
  refine ⟨all.take index, all.drop (index + 1), ?_, ?_⟩
  · rw [← hworker, List.getElem_cons_drop, List.take_append_drop]
  · intro next
    rw [List.set_eq_take_append_cons_drop, if_pos hindex]

/-- What the driver does when it moves. -/
theorem driverMove?_cases (h : d.driverMove? rule = some e) :
    (∃ part, d.pending.lookup d.written = some part ∧ e = d.writePart rule part) ∨
    (d.pending.lookup d.written = none ∧
      d.sent < min rule.clauses.length (d.written + d.window) ∧
      e = { d with queue := d.queue ++ [d.sent], sent := d.sent + 1 }) ∨
    (∃ entry rest, d.pending.lookup d.written = none ∧ d.channel = entry :: rest ∧
      e = { d with channel := rest, pending := entry :: d.pending }) := by
  rw [driverMove?] at h
  cases hpart : d.pending.lookup d.written with
  | some part =>
    simp only [hpart, Option.some.injEq] at h
    exact Or.inl ⟨part, rfl, h.symm⟩
  | none =>
    simp only [hpart] at h
    split at h
    · rename_i hsent
      rw [Option.some.injEq] at h
      exact Or.inr (Or.inl ⟨rfl, hsent, h.symm⟩)
    · split at h
      · cases h
      · split at h
        · cases h
        · rename_i entry rest hchannel
          rw [Option.some.injEq] at h
          exact Or.inr (Or.inr ⟨entry, rest, rfl, hchannel, h.symm⟩)

/-- What a worker does when it moves. -/
theorem workerMove?_cases {index : ℕ} (h : d.workerMove? rule index = some e) :
    (∃ place rest, d.workers[index]? = some .idle ∧ d.queue = place :: rest ∧
      e = { d with queue := rest, workers := d.workers.set index (.expanding place) }) ∨
    (∃ place, d.workers[index]? = some (.expanding place) ∧
      e = { d with
        workers := d.workers.set index (.delivering place (rule.partAt place)) }) ∨
    (∃ place part, d.workers[index]? = some (.delivering place part) ∧
      e = { d with
        channel := d.channel ++ [(place, part)]
        workers := d.workers.set index .idle }) := by
  rw [workerMove?] at h
  split at h
  · cases h
  · cases h
  · rename_i place rest hworker hqueue
    rw [Option.some.injEq] at h
    exact Or.inl ⟨place, rest, hworker, hqueue, h.symm⟩
  · rename_i place hworker
    rw [Option.some.injEq] at h
    exact Or.inr (Or.inl ⟨place, hworker, h.symm⟩)
  · rename_i place part hworker
    split at h
    · rw [Option.some.injEq] at h
      exact Or.inr (Or.inr ⟨place, part, hworker, h.symm⟩)
    · cases h

theorem move_of_driverMove? (h : d.driverMove? rule = some e) :
    Move rule d (d.writes .driver) e := by
  rw [writes]
  rcases driverMove?_cases h with ⟨part, hpart, rfl⟩ | ⟨hpart, hsent, rfl⟩ |
    ⟨entry, rest, hpart, hchannel, rfl⟩ <;> rw [hpart]
  · exact .write hpart
  · exact .handOut hsent
  · exact .receive hchannel

theorem move_of_workerMove? {index : ℕ} (h : d.workerMove? rule index = some e) :
    Move rule d [] e := by
  rcases workerMove?_cases h with ⟨place, rest, hworker, hqueue, rfl⟩ | ⟨place, hworker, rfl⟩ |
    ⟨place, part, hworker, rfl⟩
  all_goals
    obtain ⟨before, after, hsplit, hset⟩ := exists_split_of_getElem? hworker
    rw [hset]
  · exact .take hsplit hqueue
  · exact .expand hsplit
  · exact .deliver hsplit

theorem move_of_move? {mover : Mover} (h : d.move? rule mover = some e) :
    Move rule d (d.writes mover) e := by
  cases mover with
  | driver => exact move_of_driverMove? h
  | worker index => exact move_of_workerMove? h

/-! ## How many moves there are -/

/-- The moves that the clauses have before them: a clause that waits for a worker has one
more than one that a worker has taken, and one that is not handed out has six. -/
def stages (rule : Rule) (d : Dispatch) : ℕ :=
  6 * (rule.clauses.length - d.sent) + 5 * d.queue.length +
    (d.workers.map Worker.stages).sum + 2 * d.channel.length + d.pending.length

/-- Every move takes a clause one stage on. -/
theorem stages_lt_of_move (hmove : Move rule d new e) : e.stages rule < d.stages rule := by
  cases hmove with
  | write hpart =>
    have hfewer : (d.pending.filter fun entry => entry.1 ≠ d.written).length <
        d.pending.length :=
      List.length_filter_lt_length_iff_exists.2 ⟨_, mem_of_lookup_eq_some hpart, by simp⟩
    exact Nat.add_lt_add_left hfewer _
  | handOut hsent =>
    simp only [stages, List.length_append, List.length_singleton]
    omega
  | receive hchannel =>
    simp only [stages, hchannel, List.length_cons]
    omega
  | take hworkers hqueue =>
    simp only [stages, hworkers, hqueue, List.map_append, List.map_cons, List.sum_append,
      List.sum_cons, List.length_cons, Worker.stages]
    omega
  | expand hworkers =>
    simp only [stages, hworkers, List.map_append, List.map_cons, List.sum_append,
      List.sum_cons, Worker.stages]
    omega
  | deliver hworkers =>
    simp only [stages, hworkers, List.map_append, List.map_cons, List.sum_append,
      List.sum_cons, List.length_append, List.length_singleton, Worker.stages]
    omega

theorem stages_start (rule : Rule) (workers : ℕ) (table : Table) :
    (start rule workers table).stages rule = 6 * rule.clauses.length := by
  simp [stages, start, Worker.stages]

/-- A chain of steps that each lower a number is no longer than the number at its start. -/
theorem length_le_of_isChain {α : Type} {step : α → α → Prop} (size : α → ℕ)
    (hlt : ∀ a b, step a b → size b < size a) {first : α} {rest : List α}
    (hchain : (first :: rest).IsChain step) : rest.length ≤ size first := by
  induction rest generalizing first with
  | nil => exact Nat.zero_le _
  | cons next rest ih =>
    rw [List.isChain_cons_cons] at hchain
    have hnext := hlt first next hchain.1
    have hrest := ih hchain.2
    rw [List.length_cons]
    omega

/-- A history has at most six moves for each clause. -/
theorem length_le_of_history {states : List Dispatch}
    (hsteps : (start rule workers table :: states).IsChain (Step rule)) :
    states.length ≤ 6 * rule.clauses.length := by
  rw [← stages_start rule workers table]
  exact length_le_of_isChain (stages rule)
    (fun _ _ ⟨_, hmove⟩ => stages_lt_of_move (move_of_move? hmove)) hsteps

/-! ## The invariant -/

/-- What holds at every moment of a run with the given log. -/
structure Invariant (rule : Rule) (workers : ℕ) (table : Table)
    (log : List (ℕ × Entries)) (d : Dispatch) : Prop where
  workers_length : d.workers.length = min workers rule.clauses.length
  held_perm : (d.held ++ List.range d.written).Perm (List.range d.sent)
  sent_le : d.sent ≤ min rule.clauses.length (d.written + d.window)
  parts_eq : ∀ entry ∈ d.parts, entry.2 = rule.partAt entry.1
  table_eq : d.table = rule.tableAfter table d.written
  reports_eq : d.reports = rule.reportsAfter table d.written
  log_eq : log = (List.range d.written).map fun i => (i, rule.partAt i)

namespace Invariant

theorem held_length (h : Invariant rule workers table log d) :
    d.held.length + d.written = d.sent := by
  have hlength := h.held_perm.length_eq
  rwa [List.length_append, List.length_range, List.length_range] at hlength

/-- The places in which a clause can be share the window. -/
theorem length_add_le_window (h : Invariant rule workers table log d) :
    d.queue.length + (d.workers.filterMap Worker.place?).length +
      d.channel.length + d.pending.length ≤ d.window := by
  have hheld := h.held_length
  have hsent := h.sent_le
  simp only [held, List.length_append, List.length_map] at hheld
  omega

theorem nodup (h : Invariant rule workers table log d) :
    (d.held ++ List.range d.written).Nodup :=
  h.held_perm.nodup_iff.2 List.nodup_range

theorem mem_held_of_lt (h : Invariant rule workers table log d)
    (hlt : d.written < d.sent) : d.written ∈ d.held := by
  have hmem := h.held_perm.mem_iff.2 (List.mem_range.2 hlt)
  rcases List.mem_append.1 hmem with hmem | hmem
  · exact hmem
  · exact absurd (List.mem_range.1 hmem) (Nat.lt_irrefl _)

theorem start (rule : Rule) (workers : ℕ) (table : Table) :
    Invariant rule workers table [] (Dispatch.start rule workers table) where
  workers_length := List.length_replicate
  held_perm := by
    have hidle : Worker.idle.place? = none := rfl
    simp [Dispatch.start, held, List.filterMap_replicate_of_none hidle]
  sent_le := Nat.zero_le _
  parts_eq := by
    have hidle : Worker.idle.part? = none := rfl
    simp [Dispatch.start, parts, List.filterMap_replicate_of_none hidle]
  table_eq := rfl
  reports_eq := rfl
  log_eq := rfl

private theorem perm_cons_filter_ne {entries : List (ℕ × Entries)} {place : ℕ}
    {part : Entries} (hnodup : (entries.map Prod.fst).Nodup)
    (hpart : entries.lookup place = some part) :
    (entries.map Prod.fst).Perm
      (place :: (entries.filter fun entry => entry.1 ≠ place).map Prod.fst) := by
  have hplace : place ∈ entries.map Prod.fst :=
    List.mem_map.2 ⟨_, mem_of_lookup_eq_some hpart, rfl⟩
  have hfilter : (entries.filter fun entry => entry.1 ≠ place).map Prod.fst =
      (entries.map Prod.fst).erase place := by
    rw [hnodup.erase_eq_filter, List.filter_map]
    congr 1
    apply List.filter_congr
    intro entry _
    by_cases heq : entry.1 = place <;> simp [heq]
  rw [hfilter]
  exact List.perm_cons_erase hplace

/-- Writing the next part moves its clause from the kept parts to the written
ones, and the table on by one clause. -/
theorem write (h : Invariant rule workers table log d)
    (hpacking : table.packing = rule.packing) {part : Entries}
    (hpart : d.pending.lookup d.written = some part) :
    Invariant rule workers table (log ++ [(d.written, part)])
      (d.writePart rule part) := by
  have hmem := mem_of_lookup_eq_some hpart
  have hpartAt : part = rule.partAt d.written :=
    h.parts_eq (d.written, part) (List.mem_append_right _ hmem)
  have hpending : (d.pending.map Prod.fst).Nodup :=
    (h.nodup.sublist (List.sublist_append_left _ _)).sublist
      (List.sublist_append_right _ _)
  have hmoved := perm_cons_filter_ne hpending hpart
  have hwritten : d.written ∈ List.range d.sent := by
    apply h.held_perm.mem_iff.1
    apply List.mem_append_left
    apply List.mem_append_right
    exact List.mem_map.2 ⟨_, hmem, rfl⟩
  have hplace : d.written < rule.clauses.length := by
    have hsent := h.sent_le
    have hlt := List.mem_range.1 hwritten
    omega
  have htable : d.table.merge part = rule.tableAfter table (d.written + 1) := by
    rw [h.table_eq, hpartAt]
    exact Rule.merge_partAt hpacking hplace
  refine ⟨h.workers_length, ?_, ?_, ?_, htable, ?_, ?_⟩
  · refine List.Perm.trans ?_ h.held_perm
    rw [List.perm_iff_count]
    intro place
    have hcount := hmoved.count_eq place
    simp only [writePart, held, List.range_succ, List.count_append,
      List.count_cons, List.count_nil] at hcount ⊢
    omega
  · have hsent := h.sent_le
    simp only [writePart, window] at hsent ⊢
    omega
  · intro entry hentry
    apply h.parts_eq entry
    simp only [writePart, parts, List.mem_append, List.mem_filter] at hentry ⊢
    exact hentry.imp_right And.left
  · simp only [writePart, h.reports_eq, htable, Rule.reportsAfter_succ]
  · simp only [writePart, h.log_eq, hpartAt, List.range_succ, List.map_append,
      List.map_cons, List.map_nil]

/-- A move that only takes clauses and parts from one place to another keeps
the invariant. -/
theorem rearrange (h : Invariant rule workers table log d)
    (hwritten : e.written = d.written) (hsent : e.sent = d.sent)
    (htable : e.table = d.table) (hreports : e.reports = d.reports)
    (hlength : e.workers.length = d.workers.length) (hheld : e.held.Perm d.held)
    (hparts : ∀ entry ∈ e.parts,
      entry ∈ d.parts ∨ entry.2 = rule.partAt entry.1) :
    Invariant rule workers table (log ++ []) e where
  workers_length := by rw [hlength, h.workers_length]
  held_perm := by
    rw [hwritten, hsent]
    exact (hheld.append_right _).trans h.held_perm
  sent_le := by
    rw [hsent, hwritten, window, hlength]
    exact h.sent_le
  parts_eq := fun entry hentry => (hparts entry hentry).elim (h.parts_eq entry) id
  table_eq := by rw [htable, hwritten, h.table_eq]
  reports_eq := by rw [hreports, hwritten, h.reports_eq]
  log_eq := by rw [List.append_nil, hwritten, h.log_eq]

/-- Every move keeps the invariant. -/
theorem move (h : Invariant rule workers table log d)
    (hpacking : table.packing = rule.packing) (hmove : Move rule d new e) :
    Invariant rule workers table (log ++ new) e := by
  cases hmove with
  | write hpart => exact h.write hpacking hpart
  | handOut hsent =>
    refine ⟨h.workers_length, ?_, hsent, h.parts_eq, h.table_eq, h.reports_eq,
      by rw [List.append_nil, h.log_eq]⟩
    rw [List.perm_iff_count]
    intro place
    have hcount := h.held_perm.count_eq place
    simp only [held, List.range_succ, List.count_append] at hcount ⊢
    omega
  | receive hchannel =>
    refine h.rearrange rfl rfl rfl rfl rfl ?_ ?_
    · rw [List.perm_iff_count]
      intro place
      simp only [held, hchannel, List.map_cons, List.count_append,
        List.count_cons]
      omega
    · intro entry hentry
      left
      simp only [parts, hchannel, List.mem_append, List.mem_cons] at hentry ⊢
      tauto
  | take hworkers hqueue =>
    refine h.rearrange rfl rfl rfl rfl ?_ ?_ ?_
    · simp [hworkers]
    · rw [List.perm_iff_count]
      intro place
      simp only [held, hworkers, hqueue, List.filterMap_append,
        List.filterMap_cons, Worker.place?, List.count_append, List.count_cons]
      omega
    · intro entry hentry
      left
      simpa [parts, hworkers, Worker.part?] using hentry
  | @expand before after place hworkers =>
    refine h.rearrange rfl rfl rfl rfl ?_ ?_ ?_
    · simp [hworkers]
    · simp [held, hworkers, Worker.place?]
    · intro entry hentry
      by_cases hnew : entry = (place, rule.partAt place)
      · right
        rw [hnew]
      · left
        simp only [parts, hworkers, List.filterMap_append, List.filterMap_cons,
          Worker.part?, List.mem_append, List.mem_cons] at hentry ⊢
        tauto
  | deliver hworkers =>
    refine h.rearrange rfl rfl rfl rfl ?_ ?_ ?_
    · simp [hworkers]
    · rw [List.perm_iff_count]
      intro place
      simp only [held, hworkers, List.filterMap_append, List.filterMap_cons,
        Worker.place?, List.map_append, List.map_cons, List.map_nil,
        List.count_append, List.count_cons, List.count_nil]
      omega
    · intro entry hentry
      left
      simp only [parts, hworkers, List.filterMap_append, List.filterMap_cons,
        Worker.part?, List.mem_append, List.mem_cons, List.not_mem_nil,
        or_false] at hentry ⊢
      tauto

/-- So it holds in every run. -/
theorem of_history (hpacking : table.packing = rule.packing)
    (h : History rule workers table log d) :
    Invariant rule workers table log d := by
  induction h with
  | start => exact start rule workers table
  | step _ hmove ih => exact ih.move hpacking (move_of_move? hmove)

theorem written_le_sent (h : Invariant rule workers table log d) :
    d.written ≤ d.sent := by
  have hheld := h.held_length
  omega

/-- While a worker is busy, the channel has room for its part. -/
theorem channel_lt_window (h : Invariant rule workers table log d)
    {worker : Worker} {place : ℕ} (hworker : worker ∈ d.workers)
    (hplace : worker.place? = some place) : d.channel.length < d.window := by
  have hbusy : place ∈ d.workers.filterMap Worker.place? :=
    List.mem_filterMap.2 ⟨worker, hworker, hplace⟩
  have hpos := List.length_pos_of_mem hbusy
  have hwindow := h.length_add_le_window
  omega

/-- A busy worker is never blocked. -/
theorem busy_worker_moves (h : Invariant rule workers table log d)
    {index place : ℕ} {worker : Worker}
    (hworker : d.workers[index]? = some worker)
    (hplace : worker.place? = some place) :
    (d.move? rule (.worker index)).isSome := by
  have hroom := h.channel_lt_window (List.mem_of_getElem? hworker) hplace
  rw [move?, workerMove?, hworker]
  cases worker with
  | idle => cases hplace
  | expanding place => rfl
  | delivering place part => simp [hroom]

theorem exists_move_of_mem_workers (h : Invariant rule workers table log d) {place : ℕ}
    (hplace : place ∈ d.workers.filterMap Worker.place?) :
    ∃ mover, (d.move? rule mover).isSome := by
  obtain ⟨worker, hworker, hbusy⟩ := List.mem_filterMap.1 hplace
  obtain ⟨index, hindex⟩ := List.mem_iff_getElem?.1 hworker
  exact ⟨.worker index, h.busy_worker_moves hindex hbusy⟩

/-- While a clause is queued, the first worker is busy or takes it. -/
theorem exists_move_of_mem_queue (h : Invariant rule workers table log d)
    (hlength : 0 < d.workers.length) {place : ℕ} (hplace : place ∈ d.queue) :
    ∃ mover, (d.move? rule mover).isSome := by
  have hfirst := List.getElem?_eq_getElem hlength
  exists .worker 0
  cases hworker : d.workers[0] with
  | idle =>
    cases hqueue : d.queue with
    | nil =>
      rw [hqueue] at hplace
      cases hplace
    | cons next rest =>
      rw [move?, workerMove?, hfirst, hworker, hqueue]
      rfl
  | expanding held =>
    rw [hworker] at hfirst
    exact h.busy_worker_moves hfirst rfl
  | delivering held part =>
    rw [hworker] at hfirst
    exact h.busy_worker_moves hfirst rfl

/-- The driver waits only if the next part has not arrived, the window is full
and the channel is empty. -/
theorem waiting_of_driverMove?_eq_none (hunwritten : d.written < rule.clauses.length)
    (hnone : d.driverMove? rule = none) :
    d.pending.lookup d.written = none ∧
      min rule.clauses.length (d.written + d.window) ≤ d.sent ∧ d.channel = [] := by
  have hfinished : d.isFinished rule = false := by
    rw [isFinished, beq_eq_false_iff_ne]
    exact Nat.ne_of_lt hunwritten
  rw [driverMove?, hfinished] at hnone
  cases hpending : d.pending.lookup d.written with
  | some part => simp [hpending] at hnone
  | none =>
    by_cases hsent : d.sent < min rule.clauses.length (d.written + d.window)
    · simp [hpending, hsent] at hnone
    · cases hchannel : d.channel with
      | nil => exact ⟨rfl, Nat.not_lt.1 hsent, rfl⟩
      | cons entry rest => simp [hpending, hsent, hchannel] at hnone

/-- Some participant has a move until all clauses are written. -/
theorem exists_step (h : Invariant rule workers table log d)
    (hworkers : 0 < workers) (hunwritten : d.written < rule.clauses.length) :
    ∃ e, Step rule d e := by
  have hlength : 0 < d.workers.length := by
    rw [h.workers_length]
    omega
  have hmoves : ∃ mover, (d.move? rule mover).isSome := by
    cases hdriver : d.driverMove? rule with
    | some e => exact ⟨.driver, by rw [move?, hdriver]; rfl⟩
    | none =>
      -- Nothing can be handed out, so the next clause is somewhere on its way.
      obtain ⟨hpending, hsent, hchannel⟩ :=
        waiting_of_driverMove?_eq_none hunwritten hdriver
      have hlt : d.written < d.sent := by
        rw [window] at hsent
        omega
      have hheld := h.mem_held_of_lt hlt
      simp only [held, hchannel, List.map_nil, List.append_nil, List.mem_append]
        at hheld
      rcases hheld with (hqueue | hbusy) | hkept
      · exact h.exists_move_of_mem_queue hlength hqueue
      · exact h.exists_move_of_mem_workers hbusy
      · exact absurd hkept (lookup_eq_none_iff_not_mem_keys.1 hpending)
  obtain ⟨mover, hmover⟩ := hmoves
  obtain ⟨e, hmove⟩ := Option.isSome_iff_exists.1 hmover
  exact ⟨e, mover, hmove⟩

end Invariant

/-- **A build that is shared out is the build in order.**  For any rule, any
table to start from and any number of workers, in every run: each clause that
was handed out is in one place; at most two for each worker are not yet
written, so that no worker waits for the channel and the kept parts do not
outgrow it; every part is written once and in the order of the clauses; the
build never gets stuck; and when all is written, the table and the reports are
those of a build in order. -/
theorem history_is_sequential {rule : Rule} {workers : ℕ} (hworkers : 0 < workers)
    (name : Option String) (entries : Entries) {log : List (ℕ × Entries)}
    {d : Dispatch}
    (h : History rule workers ⟨name, rule.packing, entries⟩ log d) :
    (d.queue ++ d.workers.filterMap Worker.place? ++ d.channel.map Prod.fst ++
        d.pending.map Prod.fst ++ List.range d.written).Perm
      (List.range d.sent) ∧
    d.workers.length = min workers rule.clauses.length ∧
    d.written ≤ d.sent ∧ d.sent ≤ d.written + 2 * d.workers.length ∧
    d.channel.length ≤ 2 * d.workers.length ∧
    d.pending.length ≤ 2 * d.workers.length ∧
    (∀ (index place : ℕ) (worker : Worker), d.workers[index]? = some worker →
      worker.place? = some place → (d.move? rule (.worker index)).isSome) ∧
    log = (List.range d.written).map (fun i => (i, rule.partAt i)) ∧
    d.table = rule.tableAfter ⟨name, rule.packing, entries⟩ d.written ∧
    d.reports = (List.range d.written).map (fun i =>
      ⟨i + 1, rule.clauses.length,
        (rule.tableAfter ⟨name, rule.packing, entries⟩ (i + 1)).size⟩) ∧
    (d.written < rule.clauses.length → ∃ e, Step rule d e) ∧
    (d.isFinished rule = true →
      (d.table, d.reports) =
        rule.writeClauses 0 ⟨name, rule.packing, entries⟩ rule.clauses) := by
  have hinv := Invariant.of_history rfl h
  have hsent := hinv.sent_le
  have hwindow := hinv.length_add_le_window
  rw [window] at hsent hwindow
  refine ⟨hinv.held_perm, hinv.workers_length, hinv.written_le_sent, by omega,
    by omega, by omega, fun index place worker => hinv.busy_worker_moves,
    hinv.log_eq, hinv.table_eq, hinv.reports_eq, hinv.exists_step hworkers, ?_⟩
  intro hfinished
  rw [isFinished, beq_iff_eq] at hfinished
  rw [hinv.table_eq, hinv.reports_eq, hfinished, Rule.tableAfter_length,
    Rule.reportsAfter_length]

/-- Two workers finish the clauses of `Rule.overlapping` in the wrong order. -/
def crossed : List Mover :=
  [.driver, .driver, .worker 0, .worker 1, .worker 1, .worker 1, .driver,
   .worker 0, .worker 0, .driver, .driver, .driver]

/-- The part that came early is written in its turn. -/
theorem crossed_is_sequential :
    0 < 2 ∧ ∃ log d,
      History Rule.overlapping 2 Rule.overlapping.blankTable log d ∧
      d = run Rule.overlapping crossed
        (start Rule.overlapping 2 Rule.overlapping.blankTable) ∧
      log = [(0, Rule.overlapping.partAt 0), (1, Rule.overlapping.partAt 1)] ∧
      (d.table, d.reports) = Rule.overlapping.writeClauses 0
        Rule.overlapping.blankTable Rule.overlapping.clauses := by
  have hstart : History Rule.overlapping 2 Rule.overlapping.blankTable [] _ :=
    .start
  obtain ⟨log, hlog⟩ := exists_history_run crossed hstart
  have hfacts := history_is_sequential (by decide) Rule.overlapping.name ∅ hlog
  obtain ⟨_, _, _, _, _, _, _, hlogEq, _, _, _, hfinish⟩ := hfacts
  refine ⟨by decide, log, _, hlog, rfl, hlogEq, hfinish ?_⟩
  rfl

end Dispatch

end Cellular
