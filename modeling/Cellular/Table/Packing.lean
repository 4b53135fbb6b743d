import Cellular.Grid.Coord
import Cellular.Rule.Ring

/-!
# Packed configurations

A configuration is the state of a cell with those of its eight neighbours.
Tables are keyed by configurations packed into one number: each of the nine
states has a slot of the same width, and the slots are numbered like the cells
of the three by three square, row by row.  Configurations are also counted, as
the numerals with nine digits in base `stateCount`.
-/

namespace Cellular

/-- The states of a cell and of its neighbours. -/
structure Configuration where
  center : State
  ring : Ring State
deriving DecidableEq

namespace Configuration

/-- The nine states, the center first. -/
def states (c : Configuration) : List State :=
  c.center :: c.ring.cells

/-- The configuration of nine states. -/
def ofStates? : List State → Option Configuration
  | [] => none
  | center :: rest => (Ring.ofList? rest).map fun ring => ⟨center, ring⟩

end Configuration

/-- The layout of keys for a number of states. -/
structure Packing where
  stateCount : Nat
deriving DecidableEq

namespace Packing

/-- The slots of the nine states, the center first. -/
def slots : List Nat :=
  [4, 7, 6, 3, 0, 1, 2, 5, 8]

/-- The number of bits of a slot: one more than the least number that has room
for every state. -/
def width (p : Packing) : Nat :=
  Nat.log2 (max p.stateCount 2 - 1) + 2

/-- The place in a key of the state at a position, the center being at
position 0. -/
def offset (p : Packing) (position : Nat) : Nat :=
  slots.getD position 0 * p.width

/-- The key of nine states.  A state too great for its slot spills into the
next one. -/
def packStates (p : Packing) (states : List State) : Nat :=
  (states.zip slots).foldl
    (fun key (s, slot) => key ||| s <<< (slot * p.width)) 0

/-- The key of a configuration. -/
def pack (p : Packing) (c : Configuration) : Nat :=
  p.packStates c.states

/-- The state in a slot of a key. -/
def slotState (p : Packing) (key slot : Nat) : State :=
  (key >>> (slot * p.width)) % Nat.pow 2 p.width

/-- The configuration that a key stands for. -/
def unpack (p : Packing) (key : Nat) : Configuration where
  center := p.slotState key 4
  ring := ⟨[7, 6, 3, 0, 1, 2, 5, 8].map (p.slotState key), rfl⟩

def configurationCount (p : Packing) : Nat :=
  Nat.pow p.stateCount 9

/-- The last `count` digits of a number, the most significant first. -/
def digits (base : Nat) : Nat → Nat → List Nat
  | 0, _ => []
  | count + 1, n => n / Nat.pow base count % base :: digits base count n

theorem length_digits (base count n : Nat) :
    (digits base count n).length = count := by
  induction count with
  | zero => rfl
  | succ count ih => simp [digits, ih]

/-- The configuration with a number: the center is its most significant digit
and the last neighbour its least significant one. -/
def configurationAt (p : Packing) (n : Nat) : Configuration where
  center := n / Nat.pow p.stateCount 8 % p.stateCount
  ring := ⟨digits p.stateCount 8 n, length_digits _ _ _⟩

/-- At most `count` configurations in the order of their numbers, the first of
them being that with number `start`. -/
def configurationsFrom (p : Packing) (start count : Nat) :
    List Configuration :=
  (List.range' start (min count (p.configurationCount - start))).map
    p.configurationAt

/-- All configurations, in the order of their numbers. -/
def configurations (p : Packing) : List Configuration :=
  (List.range p.configurationCount).map p.configurationAt

theorem configurationsFrom_eq_take_drop (p : Packing) (start count : Nat) :
    p.configurationsFrom start count =
      (p.configurations.drop start).take count := by
  apply List.ext_getElem <;> simp [configurationsFrom, configurations]

end Packing

end Cellular
