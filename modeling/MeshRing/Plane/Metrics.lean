import MeshRing.Plane.Point

/-! # Triangle metrics -/

namespace MeshRing

/-- The smaller number; a NaN is passed over. -/
def minNumber (x y : Float) : Float :=
  if x.isNaN then y else if y < x then y else x

/-- The larger number; a NaN is passed over. -/
def maxNumber (x y : Float) : Float :=
  if x.isNaN then y else if x < y then y else x

/-- Moves a number into `[-1, 1]`; a NaN stays. -/
def clampUnit (x : Float) : Float :=
  if x < -1.0 then -1.0 else if 1.0 < x then 1.0 else x

def infinity : Float := 1.0 / 0.0

structure Metrics where
  /-- The longest edge over the shortest. -/
  aspectRatio : Float
  /-- The smallest corner angle, in degrees. -/
  minAngle : Float
  /-- Negative when the corners run clockwise. -/
  area : Float
  /-- The height over the longest edge, which is the smallest height. -/
  minHeight : Float

/-- Why a triangle is refused. -/
inductive GeometryFault where
  | shortEdge
  | degenerate (minHeight : Float)
  | inverted (area : Float)
  | invalidAngle (minAngle : Float)
  deriving DecidableEq

def GeometryFault.text : GeometryFault → String
  | .shortEdge => "zero-length edge detected"
  | .degenerate minHeight => "degenerate triangle: min height = " ++ measureText minHeight
  | .inverted area => "inverted triangle: signed area = " ++ measureText area
  | .invalidAngle minAngle => "invalid triangle: min angle = " ++ measureText minAngle

/-- The length of an edge; one no longer than the tolerance is refused. -/
def edgeLength (p q : Point) (tolerance : Float) : Except GeometryFault Float :=
  let length := p.distance q
  if length ≤ tolerance then .error .shortEdge else .ok length

/-- The angle in degrees between two displacements; one no longer than the tolerance is refused. -/
def angleBetween (x y : Offset) (tolerance : Float) : Except GeometryFault Float :=
  if x.length ≤ tolerance || y.length ≤ tolerance then .error .shortEdge
  else
    let cosine := clampUnit (x.dot y / (x.length * y.length))
    .ok (cosine.acos * 180.0 / 3.141592653589793)

/-- The angle at `p` between the directions to its neighbours. -/
def cornerAngle (before p after : Point) (tolerance : Float) : Except GeometryFault Float :=
  angleBetween (before - p) (after - p) tolerance

structure Corners where
  a : Point
  b : Point
  c : Point
  deriving DecidableEq

namespace Corners

def area (t : Corners) : Float :=
  Point.area t.a t.b t.c

/-- The lengths of the edges `a b`, `b c` and `c a`. -/
def edgeLengths (t : Corners) (tolerance : Float) : Except GeometryFault (List Float) := do
  let ab ← edgeLength t.a t.b tolerance
  let bc ← edgeLength t.b t.c tolerance
  let ca ← edgeLength t.c t.a tolerance
  return [ab, bc, ca]

def angles (t : Corners) (tolerance : Float) : Except GeometryFault (List Float) := do
  let a ← cornerAngle t.c t.a t.b tolerance
  let b ← cornerAngle t.a t.b t.c tolerance
  let c ← cornerAngle t.b t.c t.a tolerance
  return [a, b, c]

/-- Measuring fails only on an edge no longer than the tolerance, where angles are undefined. -/
def metrics (t : Corners) (tolerance : Float) : Except GeometryFault Metrics := do
  let lengths ← t.edgeLengths tolerance
  let angles ← t.angles tolerance
  let shortest := lengths.foldl minNumber infinity
  let longest := lengths.foldl maxNumber 0.0
  return {
    aspectRatio := longest / shortest
    minAngle := angles.foldl minNumber infinity
    area := t.area
    minHeight := 2.0 * t.area.abs / longest }

/-- The metrics of a triangle that is higher than the tolerance, not inverted, and
has proper angles. -/
def validMetrics (t : Corners) (tolerance : Float) : Except GeometryFault Metrics := do
  let m ← t.metrics tolerance
  if !m.minHeight.isFinite || m.minHeight ≤ tolerance then throw (.degenerate m.minHeight)
  if m.area < 0.0 then throw (.inverted m.area)
  if !m.minAngle.isFinite || m.minAngle ≤ 0.0 then throw (.invalidAngle m.minAngle)
  return m

end Corners

end MeshRing
