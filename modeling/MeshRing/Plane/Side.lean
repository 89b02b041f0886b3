import MeshRing.Plane.Point

/-! Sides of a line and crossings. The tolerance is a length: a point within it of a line
lies on the line, and a line no longer than it has no direction at all. -/

namespace MeshRing

/-- Where a point lies, seen along a directed line. -/
inductive Side where
  | left
  | right
  | on
  deriving DecidableEq

namespace Side

/-- The side of a point at a signed distance from the line, positive to the left. -/
def ofDistance (distance tolerance : Float) : Side :=
  if distance > tolerance then .left
  else if distance < -tolerance then .right
  else .on

/-- The two sides are strict and different. -/
def opposite : Side → Side → Bool
  | .left, .right => true
  | .right, .left => true
  | _, _ => false

end Side

namespace Point

/-- The side of `c` along the line from `a` to `b`. The distance is measured from `a`. -/
def side (a b c : Point) (tolerance : Float) : Side :=
  let length := distance a b
  if length ≤ tolerance then .on else .ofDistance (doubleArea a b c / length) tolerance

/-- The points `p` and `q` lie strictly on opposite sides of the line from `a` to `b`. -/
def separates (a b p q : Point) (tolerance : Float) : Bool :=
  (side a b p tolerance).opposite (side a b q tolerance)

/-- The segments from `a0` to `a1` and from `b0` to `b1` cross properly: touching, T-junctions and
collinear overlap do not count, nor does an end within the tolerance of the other line. -/
def crossing (a0 a1 b0 b1 : Point) (tolerance : Float) : Bool :=
  separates b0 b1 a0 a1 tolerance && separates a0 a1 b0 b1 tolerance

end Point

end MeshRing
