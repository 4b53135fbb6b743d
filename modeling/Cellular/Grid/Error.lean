/-!
# Faults of grid operations

The reasons for which an operation on grids or on their motions is refused,
with the wording of each.
-/

namespace Cellular

/-- Why an operation on a grid is refused. -/
inductive GridError where
  /-- A box was asked of a grid without live cells. -/
  | emptyPattern
  /-- A coordinate or the extent of a box leaves the span. -/
  | coordinateOverflow
  /-- No motion has this name. -/
  | unknownTransform (name : String)
deriving DecidableEq

def GridError.message : GridError → String
  | emptyPattern => "empty pattern has no bounding box"
  | coordinateOverflow => "coordinate overflow"
  | unknownTransform name => "unknown transform '" ++ name ++ "'"

end Cellular
