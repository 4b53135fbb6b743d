import Cellular.Grid.Coord
import Cellular.Rule.Symmetry

/-!
# Transition clauses

A clause of a rule table gives the next state of a cell from its own state and
those of its eight neighbours.  Each of these ten fields is a state or one of
the rule's variables.
-/

namespace Cellular

/-- A field of a clause: a state, or a variable by its place in the order of
declaration. -/
inductive Field where
  | state (s : State)
  | var (id : Nat)
deriving DecidableEq

/-- The variable of a field, if it is one. -/
def Field.var? : Field → Option Nat
  | state _ => none
  | var id => some id

/-- A transition clause, with the number of the line it was read from, or 0. -/
structure Clause where
  center : Field
  ring : Ring Field
  next : Field
  line : Nat
deriving DecidableEq

namespace Clause

def fieldCount : Nat := 10

/-- The nine fields that are compared with a cell and its neighbours. -/
def inputs (clause : Clause) : List Field :=
  clause.center :: clause.ring.cells

/-- The ten fields in order. -/
def fields (clause : Clause) : List Field :=
  clause.inputs ++ [clause.next]

/-- The clause of ten fields. -/
def ofFields? (line : Nat) : List Field → Option Clause
  | [center, a, b, c, d, e, f, g, h, next] =>
    some ⟨center, ⟨[a, b, c, d, e, f, g, h], rfl⟩, next, line⟩
  | _ => none

def withRing (clause : Clause) (ring : Ring Field) : Clause :=
  { clause with ring }

/-- The clause with its ring a quarter turn on. -/
def quarterTurn (clause : Clause) : Clause :=
  clause.withRing clause.ring.quarterTurn

/-- The clause with its ring reflected. -/
def reflect (clause : Clause) : Clause :=
  clause.withRing clause.ring.reflect

/-- The clause with its ring turned by `k` places. -/
def shift (clause : Clause) (k : Nat) : Clause :=
  clause.withRing (clause.ring.shift k)

/-- The clauses that one clause stands for under a symmetry. -/
def expand (clause : Clause) (symmetry : Symmetry) : List Clause :=
  (symmetry.orbit clause.ring).map clause.withRing

/-- Insert a number into a strictly ascending list that may hold it already. -/
def insertAscending (n : Nat) : List Nat → List Nat
  | [] => [n]
  | m :: rest =>
    if n < m then n :: m :: rest
    else if n = m then m :: rest
    else m :: insertAscending n rest

/-- The different variables of a clause, in the order of declaration. -/
def variableIds (clause : Clause) : List Nat :=
  (clause.fields.filterMap Field.var?).foldr insertAscending []

end Clause

end Cellular
