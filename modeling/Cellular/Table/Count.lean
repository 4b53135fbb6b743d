import Cellular.Table.Build
import Cellular.Table.Odometer

/-!
# Counting assignments

Before the assignments of a clause are gone through, they are counted: the sizes of its
domains are multiplied one after the other, in a word of 128 bits.  A product may not
fit the word.  A build with checked products then ends without a result; without the
check, the word keeps what it has room for.
-/

namespace Cellular

namespace Odometer

/-- The product of two numbers, if it fits a word of 128 bits. -/
def multiply? (m n : Nat) : Option Nat :=
  if m * n < Nat.pow 2 128 then some (m * n) else none

/-- The number of all choices, if every product on the way to it fits the word.  The
sizes are multiplied from the first on, whatever comes later. -/
def total? (odometer : Odometer) : Option Nat :=
  (odometer.domains.map List.length).foldlM multiply? 1

/-- The number of all choices, as far as the word holds it. -/
def totalWord (odometer : Odometer) : BitVec 128 :=
  (odometer.domains.map List.length).foldl
    (fun total size => total * BitVec.ofNat 128 size) (BitVec.ofNat 128 1)

end Odometer

namespace Rule

/-- The odometer that goes through the assignments of a clause. -/
def odometer (rule : Rule) (clause : Clause) : Odometer :=
  .start (rule.domains clause)

/-- Write the clauses of a list in turn, each after its assignments are counted with
checked products.  The table is returned with the counts. -/
def writeCounting? (rule : Rule) (table : Table) :
    List Clause → Option (Table × List Nat)
  | [] => some (table, [])
  | clause :: rest => do
    let total ← (rule.odometer clause).total?
    let (final, totals) ←
      rule.writeCounting? (table.writeAll (rule.transitions clause)) rest
    return (final, total :: totals)

/-- Build the table of a rule, counting with checked products.  There is no result if
the build ends at a count. -/
def buildCounting? (rule : Rule) (settings : Settings) :
    Option (Except BuildError (Table × List Nat)) :=
  match rule.fault? with
  | some fault => some (.error (.illFormed fault))
  | none =>
    match rule.initialTable settings with
    | .error e => some (.error e)
    | .ok table => (rule.writeCounting? table rule.clauses).map .ok

end Rule

end Cellular
