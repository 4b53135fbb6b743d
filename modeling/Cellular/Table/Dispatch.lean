import Cellular.Table.Build

/-!
# Sharing a build out to workers

The clauses of a rule can be expanded by several workers at once.  A driver
hands out the places of the clauses through a queue; each worker expands a
clause into a part, in which the later writes of the clause have replaced its
earlier ones, and sends the part through a channel of bounded length; the
driver keeps parts that arrive early and writes all of them in the order of the
clauses.  At most two clauses for each worker are handed out and not yet
written.

Every participant always has at most one move, so a history is told by who
moves next: `move?` makes one move, `Step` relates a state to those that one
move leads to, and `run` follows a schedule.  Here nobody leaves or fails; how
the participants come to an end is added in `SharedBuild`.
-/

namespace Cellular

/-- What a worker is busy with. -/
inductive Worker where
  /-- Waiting for a clause. -/
  | idle
  /-- Expanding the clause at a place. -/
  | expanding (place : Nat)
  /-- Sending the part of the clause at a place. -/
  | delivering (place : Nat) (part : Entries)

/-- Who makes a move. -/
inductive Mover where
  | driver
  | worker (index : Nat)
deriving DecidableEq

/-- The state of a build that is shared out. -/
structure Dispatch where
  /-- The number of clauses handed out. -/
  sent : Nat
  /-- The number of clauses written. -/
  written : Nat
  /-- The clauses that wait for a worker, the longest waiting first. -/
  queue : List Nat
  workers : List Worker
  /-- The parts on their way to the driver, the earliest first. -/
  channel : List (Nat × Entries)
  /-- The parts that the driver keeps until their turn. -/
  pending : List (Nat × Entries)
  table : Table
  /-- The reports made so far, in order. -/
  reports : List Progress

namespace Table

/-- Write all entries of a part. -/
def merge (table : Table) (part : Entries) : Table :=
  let write (entries : Entries) (entry : Nat × State) : Entries :=
    entries.insert entry.1 entry.2
  { table with entries := part.toList.foldl write table.entries }

end Table

namespace Rule

/-- The part of a clause: its writes with the later ones in place of the
earlier ones. -/
def partOf (rule : Rule) (clause : Clause) : Entries :=
  (rule.blankTable.writeAll (rule.transitions clause)).entries

/-- The part of the clause at a place. -/
def partAt (rule : Rule) (place : Nat) : Entries :=
  match rule.clauses[place]? with
  | some clause => rule.partOf clause
  | none => ∅

end Rule

namespace Dispatch

/-- The state at the start, for a number of workers asked for.  There are never
more workers than clauses. -/
def start (rule : Rule) (workers : Nat) (table : Table) : Dispatch where
  sent := 0
  written := 0
  queue := []
  workers := List.replicate (min workers rule.clauses.length) .idle
  channel := []
  pending := []
  table := table
  reports := []

/-- The number of clauses that may be handed out and not yet written, and the
number of parts that the channel has room for. -/
def window (d : Dispatch) : Nat :=
  2 * d.workers.length

def isFinished (rule : Rule) (d : Dispatch) : Bool :=
  d.written == rule.clauses.length

/-- Write the part whose turn it is. -/
def writePart (rule : Rule) (part : Entries) (d : Dispatch) : Dispatch :=
  let table := d.table.merge part
  let written := d.written + 1
  { d with
    written
    table
    pending := d.pending.filter fun entry => entry.1 ≠ d.written
    reports := d.reports ++ [⟨written, rule.clauses.length, table.size⟩] }

/-- The move of the driver: write the next part if it is there, or else hand
out a clause if the window allows it, or else wait for a part. -/
def driverMove? (rule : Rule) (d : Dispatch) : Option Dispatch :=
  match d.pending.lookup d.written with
  | some part => some (d.writePart rule part)
  | none =>
    if d.sent < min rule.clauses.length (d.written + d.window) then
      some { d with queue := d.queue ++ [d.sent], sent := d.sent + 1 }
    else if d.isFinished rule then
      none
    else
      match d.channel with
      | [] => none
      | entry :: rest =>
        some { d with channel := rest, pending := entry :: d.pending }

/-- The move of a worker: take a clause, expand it, or send its part if the
channel has room. -/
def workerMove? (rule : Rule) (index : Nat) (d : Dispatch) :
    Option Dispatch :=
  match d.workers[index]?, d.queue with
  | none, _ => none
  | some .idle, [] => none
  | some .idle, place :: rest =>
    some { d with
      queue := rest
      workers := d.workers.set index (.expanding place) }
  | some (.expanding place), _ =>
    some { d with
      workers := d.workers.set index (.delivering place (rule.partAt place)) }
  | some (.delivering place part), _ =>
    if d.channel.length < d.window then
      some { d with
        channel := d.channel ++ [(place, part)]
        workers := d.workers.set index .idle }
    else
      none

/-- The move of a participant, if it has one. -/
def move? (rule : Rule) : Mover → Dispatch → Option Dispatch
  | .driver, d => d.driverMove? rule
  | .worker index, d => d.workerMove? rule index

/-- Some participant's move leads from one state to the other. -/
def Step (rule : Rule) (d e : Dispatch) : Prop :=
  ∃ mover, d.move? rule mover = some e

/-- The states that moves lead to from the start. -/
inductive Reachable (rule : Rule) (workers : Nat) (table : Table) :
    Dispatch → Prop where
  | start : Reachable rule workers table (start rule workers table)
  | step {d e : Dispatch} (h : Reachable rule workers table d)
      (hstep : Step rule d e) : Reachable rule workers table e

/-- Follow a schedule.  Turns in which a participant has no move are passed
over. -/
def run (rule : Rule) (schedule : List Mover) (d : Dispatch) : Dispatch :=
  schedule.foldl (fun d mover => (d.move? rule mover).getD d) d

end Dispatch

end Cellular
