import Cellular.Table.Count
import Cellular.Table.Dispatch

/-!
# How a shared build ends

The driver closes the queue once all clauses are handed out, and a worker that
finds the queue closed and empty departs.  Before a worker expands a clause it
counts the assignments.  If that fails, so does the worker: it departs as well,
and the part of the clause is never made.  A driver that waits for a part gives
up only when no worker is left.  So a build can end with a table, it can end
without one after a worker has failed, and it can stop without an end, when the
driver waits for the part of a worker that failed while the others wait for
clauses.
-/

namespace Cellular

/-- The state of a build that is shared out, with those who have come to an end. -/
structure SharedBuild where
  dispatch : Dispatch
  /-- Whether the queue is closed, so that no more clauses are handed out. -/
  closed : Bool
  /-- The workers that have departed, by their places. -/
  departed : List Nat
  /-- Whether a worker has failed. -/
  failed : Bool
  /-- Whether the driver has given up. -/
  stopped : Bool

/-- Whether the assignments of the clause at a place can be counted. -/
def Rule.canCount (count? : Odometer → Option Nat) (rule : Rule) (place : Nat) : Bool :=
  match rule.clauses[place]? with
  | some clause => (count? (rule.odometer clause)).isSome
  | none => true

namespace SharedBuild

/-- The state at the start, for a number of workers asked for. -/
def start (rule : Rule) (workers : Nat) (table : Table) : SharedBuild where
  dispatch := .start rule workers table
  closed := false
  departed := []
  failed := false
  stopped := false

/-- The workers that have not departed. -/
def remaining (b : SharedBuild) : List Nat :=
  (List.range b.dispatch.workers.length).filter fun index => index ∉ b.departed

/-- The move of the driver.  Until all clauses are written it closes the queue as
soon as it can, and when it waits for a part although no worker is left, it gives
up. -/
def driverMove? (rule : Rule) (b : SharedBuild) : Option SharedBuild :=
  if b.stopped || b.dispatch.isFinished rule then
    none
  else if !b.closed && b.dispatch.sent == rule.clauses.length then
    some { b with closed := true }
  else
    match b.dispatch.driverMove? rule with
    | some dispatch => some { b with dispatch }
    | none => if b.remaining.isEmpty then some { b with stopped := true } else none

/-- The move of a worker.  It departs when there is nothing left to take, and it fails
when it cannot count the assignments of its clause. -/
def workerMove? (count? : Odometer → Option Nat) (rule : Rule) (index : Nat)
    (b : SharedBuild) : Option SharedBuild :=
  let moved? := (b.dispatch.workerMove? rule index).map fun dispatch => { b with dispatch }
  if index ∈ b.departed then
    none
  else
    match b.dispatch.workers[index]? with
    | some .idle =>
      if b.closed && b.dispatch.queue.isEmpty then
        some { b with departed := index :: b.departed }
      else
        moved?
    | some (.expanding place) =>
      if rule.canCount count? place then moved?
      else some { b with departed := index :: b.departed, failed := true }
    | _ => moved?

/-- The move of a participant, if it has one. -/
def move? (count? : Odometer → Option Nat) (rule : Rule) :
    Mover → SharedBuild → Option SharedBuild
  | .driver, b => b.driverMove? rule
  | .worker index, b => b.workerMove? count? rule index

/-- Some participant's move leads from one state to the other. -/
def Step (count? : Odometer → Option Nat) (rule : Rule) (b c : SharedBuild) : Prop :=
  ∃ mover, b.move? count? rule mover = some c

/-- The states that moves lead to from the start. -/
inductive Reachable (count? : Odometer → Option Nat) (rule : Rule) (workers : Nat)
    (table : Table) : SharedBuild → Prop where
  | start : Reachable count? rule workers table (start rule workers table)
  | step {b c : SharedBuild} (h : Reachable count? rule workers table b)
      (hstep : Step count? rule b c) : Reachable count? rule workers table c

/-- Whether the driver and all workers have come to an end. -/
def hasEnded (rule : Rule) (b : SharedBuild) : Bool :=
  (b.stopped || b.dispatch.isFinished rule) && b.remaining.isEmpty

/-- The table that a build gives at its end, unless a worker has failed. -/
def result? (rule : Rule) (b : SharedBuild) : Option Table :=
  if b.hasEnded rule && !b.failed then some b.dispatch.table else none

/-- Whoever makes the next move, and so on, the build ends with the given table. -/
inductive LeadsTo (count? : Odometer → Option Nat) (rule : Rule) (table : Table) :
    SharedBuild → Prop where
  | ended {b : SharedBuild} (h : b.result? rule = some table) :
      LeadsTo count? rule table b
  | step {b : SharedBuild} (hmove : ∃ c, Step count? rule b c)
      (hall : ∀ c, Step count? rule b c → LeadsTo count? rule table c) :
      LeadsTo count? rule table b

end SharedBuild

namespace Rule

/-- What comes of building a rule with checked products: a fault, or no room for the
table to start from, or the table that is written in order, or that of a shared
build. -/
inductive BuildsTo (rule : Rule) (settings : Settings) :
    Except BuildError Table → Prop where
  | illFormed {fault : RuleFault} (hfault : rule.fault? = some fault) :
      BuildsTo rule settings (.error (.illFormed fault))
  | noRoom {e : BuildError} (hfault : rule.fault? = none)
      (hinitial : rule.initialTable settings = .error e) :
      BuildsTo rule settings (.error e)
  | inOrder {initial table : Table} {totals : List Nat} (hfault : rule.fault? = none)
      (hinitial : rule.initialTable settings = .ok initial)
      (hworkers : settings.usedWorkers = none)
      (hwrite : rule.writeCounting? initial rule.clauses = some (table, totals)) :
      BuildsTo rule settings (.ok table)
  | shared {initial table : Table} {workers : Nat} (hfault : rule.fault? = none)
      (hinitial : rule.initialTable settings = .ok initial)
      (hworkers : settings.usedWorkers = some workers)
      (hleads : SharedBuild.LeadsTo Odometer.total? rule table
        (SharedBuild.start rule workers initial)) :
      BuildsTo rule settings (.ok table)

end Rule

end Cellular
