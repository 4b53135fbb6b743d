/-!
# Build settings

How a table is built from a rule: what becomes of the configurations that no
clause covers, and how the work is shared out.
-/

namespace Cellular

/-- What a table holds for the configurations that no clause covers. -/
inductive Fill where
  /-- Nothing: they are gaps. -/
  | unmapped
  /-- Their own center: they do not change. -/
  | identity
deriving DecidableEq

/-- The settings of a build. -/
structure Settings where
  fill : Fill := .unmapped
  /-- The number of workers asked for, if the clauses are to be shared out. -/
  workers : Option Nat := none
  /-- The greatest number of configurations that may be filled in, `2 ^ 27` unless
  it is set. -/
  fillLimit : Nat := 134217728
deriving DecidableEq

namespace Settings

def workerLimit : Nat := 64

/-- The number of workers that are used: at least one and at most
`workerLimit`, or none if the work is not shared out. -/
def usedWorkers (settings : Settings) : Option Nat :=
  settings.workers.map fun n => max 1 (min n workerLimit)

end Settings

end Cellular
