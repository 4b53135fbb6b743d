import Cellular.Table.Assignment

/-!
# Counting through choices

The ways to choose one value from each of some domains need not be listed in order to
go through them.  A choice is told by the places of its values, and the next choice is
found as the next number is on an odometer, whose wheels here may differ in size: the
last wheel moves on, and a wheel that was at its end goes back to the start and moves
the wheel before it.  All configurations are gone through in the same way, with nine
wheels of one size.
-/

namespace Cellular

namespace Counting

/-- One step of a numeral, given with the sizes of its wheels from the last place on:
wheels at their end go back to zero, and the first that is not moves on.  The step also
tells whether all wheels were at their end. -/
def carry : List Nat → List Nat → List Nat × Bool
  | size :: sizes, digit :: digits =>
    if digit + 1 < size then ((digit + 1) :: digits, false)
    else
      let (higher, wrapped) := carry sizes digits
      (0 :: higher, wrapped)
  | _, digits => (digits, true)

/-- One step of a numeral, given from its first place on. -/
def step (sizes digits : List Nat) : List Nat × Bool :=
  let (stepped, wrapped) := carry sizes.reverse digits.reverse
  (stepped.reverse, wrapped)

end Counting

/-- A choice of one value from each domain, by the places of the values.  An exhausted
odometer has no choice left. -/
structure Odometer where
  domains : List (List State)
  digits : List Nat
  exhausted : Bool
deriving DecidableEq

namespace Odometer

/-- The first choice.  There is none if a domain is empty. -/
def start (domains : List (List State)) : Odometer where
  domains := domains
  digits := List.replicate domains.length 0
  exhausted := domains.any List.isEmpty

/-- The values that are chosen. -/
def value (odometer : Odometer) : List State :=
  List.zipWith (fun domain place => domain.getD place 0) odometer.domains odometer.digits

/-- Go on to the next choice. -/
def advance (odometer : Odometer) : Odometer :=
  let (digits, wrapped) := Counting.step (odometer.domains.map List.length) odometer.digits
  { odometer with digits, exhausted := odometer.exhausted || wrapped }

/-- The values of the choice, and the odometer at the choice after it. -/
def next (odometer : Odometer) : Option (List State) × Odometer :=
  if odometer.exhausted then (none, odometer)
  else (some odometer.value, odometer.advance)

end Odometer

/-- A way through all configurations of some number of states, at the configuration
that comes next. -/
structure Sweep where
  stateCount : Nat
  upcoming : Option Configuration
deriving DecidableEq

/-- The way through all configurations from the first on, in which all states are 0. -/
def Packing.sweep (p : Packing) : Sweep where
  stateCount := p.stateCount
  upcoming := Configuration.ofStates? (List.replicate 9 0)

namespace Sweep

/-- The configuration that comes next, and the way on from there. -/
def next (sweep : Sweep) : Option Configuration × Sweep :=
  match sweep.upcoming with
  | none => (none, sweep)
  | some current =>
    let (digits, wrapped) := Counting.step (List.replicate 9 sweep.stateCount) current.states
    (some current,
      { sweep with upcoming := if wrapped then none else Configuration.ofStates? digits })

end Sweep

end Cellular
