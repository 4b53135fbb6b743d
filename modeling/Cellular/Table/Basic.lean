import Std.Data.ExtTreeMap
import Cellular.Table.Fingerprint
import Cellular.Table.Packing

/-!
# Transition tables

A table maps packed configurations to next states.  Configurations that it does
not map are its gaps; a table without gaps is total.
-/

namespace Cellular

/-- A finite map from keys to next states. -/
abbrev Entries := Std.ExtTreeMap Nat State

/-- A transition table. -/
structure Table where
  name : Option String
  packing : Packing
  entries : Entries

namespace Table

def empty (name : Option String) (packing : Packing) : Table where
  name := name
  packing := packing
  entries := ∅

/-- Map a configuration to a next state, in place of what it was mapped to. -/
def write (table : Table) (transition : Configuration × State) : Table :=
  let key := table.packing.pack transition.1
  { table with entries := table.entries.insert key transition.2 }

/-- Write transitions in turn: later ones win. -/
def writeAll (table : Table) (transitions : List (Configuration × State)) :
    Table :=
  transitions.foldl write table

def lookup? (table : Table) (key : Nat) : Option State :=
  table.entries[key]?

def next? (table : Table) (c : Configuration) : Option State :=
  table.lookup? (table.packing.pack c)

def size (table : Table) : Nat :=
  table.entries.size

def isEmpty (table : Table) : Bool :=
  table.size == 0

def isTotal (table : Table) : Bool :=
  table.size == table.packing.configurationCount

def gapCount (table : Table) : Nat :=
  table.packing.configurationCount - table.size

/-- The gaps, in the order of configurations. -/
def gaps (table : Table) : List Configuration :=
  table.packing.configurations.filter fun c => (table.next? c).isNone

/-- At most `count` gaps among the `left` configurations from number `start`
on. -/
def gapsFrom (table : Table) : Nat → Nat → Nat → List Configuration
  | 0, _, _ => []
  | _, 0, _ => []
  | count + 1, left + 1, start =>
    let c := table.packing.configurationAt start
    if (table.next? c).isNone then c :: gapsFrom table count left (start + 1)
    else gapsFrom table (count + 1) left (start + 1)

/-- The first `count` gaps. -/
def firstGaps (table : Table) (count : Nat) : List Configuration :=
  table.gapsFrom count table.packing.configurationCount 0

theorem lookup?_write (table : Table) (transition : Configuration × State)
    (key : Nat) :
    (table.write transition).lookup? key =
      if table.packing.pack transition.1 = key then some transition.2
      else table.lookup? key := by
  rw [lookup?, write, Std.ExtTreeMap.getElem?_insert]
  simp only [Nat.compare_eq_eq]
  rfl

private theorem gapsFrom_eq_take (table : Table) (count left start : Nat) :
    table.gapsFrom count left start =
      (((List.range' start left).map table.packing.configurationAt).filter
        fun c => (table.next? c).isNone).take count := by
  induction left generalizing count start with
  | zero => cases count <;> simp [gapsFrom]
  | succ left ih =>
    cases count with
    | zero => simp [gapsFrom]
    | succ count =>
      rw [gapsFrom, List.range'_succ, List.map_cons, List.filter_cons]
      split <;> simp [ih]

/-- The search for gaps finds them in order. -/
theorem firstGaps_eq_take (table : Table) (count : Nat) :
    table.firstGaps count = table.gaps.take count := by
  rw [firstGaps, gapsFrom_eq_take, gaps, Packing.configurations,
    List.range_eq_range']

/-- The entries in ascending order of keys. -/
def sortedEntries (table : Table) : List (Nat × State) :=
  table.entries.toList

/-- The fingerprint of the entries.  The name has no part in it. -/
def fingerprint (table : Table) : UInt64 :=
  Fingerprint.ofEntries table.sortedEntries

end Table

end Cellular
