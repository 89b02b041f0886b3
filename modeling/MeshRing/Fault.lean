import MeshRing.Plane.Metrics
import MeshRing.Record

/-! Why a ring refuses a request, and the message that says so. -/

namespace MeshRing

inductive RingFault where
  /-- A segment has the same node at both ends. -/
  | degenerateSegment (node : Node)
  /-- A triangle repeats one of its nodes. -/
  | degenerateTriangle (n0 n1 n2 : Node)
  /-- A node is given a place with a coordinate that is NaN or infinite. -/
  | nonFiniteCoordinate (node : Node) (place : Point)
  /-- A segment between the same nodes is stored already. -/
  | duplicateSegment (n0 n1 : Node)
  /-- A triangle over the same nodes is stored already. -/
  | duplicateTriangle (n0 n1 n2 : Node)
  /-- An index is past the end of a list of records. -/
  | indexOutOfRange (kind : RecordKind) (index length : Nat)
  /-- No record places the node. -/
  | missingNode (node : Node)
  /-- A triangle fails a geometric check. -/
  | invalidGeometry (reason : String)
  /-- A setting is out of range. -/
  | invalidSettings (reason : String)
  /-- The indexes of a ring disagree with its records. -/
  | invariantViolation (reason : String)
  deriving DecidableEq

namespace RingFault

def ofGeometry (f : GeometryFault) : RingFault :=
  .invalidGeometry f.text

/-- Comparison with coordinates taken as numbers, so a fault about a NaN differs from itself. -/
def numEq : RingFault → RingFault → Bool
  | .nonFiniteCoordinate m p, .nonFiniteCoordinate n q => m == n && p.numEq q
  | f, g => f == g

def text : RingFault → String
  | .degenerateSegment n => "degenerate segment: both endpoints are node " ++ n.text
  | .degenerateTriangle n0 n1 n2 =>
    "degenerate triangle: nodes (" ++ n0.text ++ ", " ++ n1.text ++ ", " ++ n2.text ++
      ") are not distinct"
  | .nonFiniteCoordinate n p => "non-finite uv " ++ p.text ++ " for node " ++ n.text
  | .duplicateSegment n0 n1 => "duplicate segment (" ++ n0.text ++ ", " ++ n1.text ++ ")"
  | .duplicateTriangle n0 n1 n2 =>
    "duplicate triangle (" ++ n0.text ++ ", " ++ n1.text ++ ", " ++ n2.text ++ ")"
  | .indexOutOfRange kind index length =>
    kind.text ++ " index " ++ toString index ++ " out of range (len = " ++ toString length ++ ")"
  | .missingNode n => "node " ++ n.text ++ " has no recorded uv in this ring"
  | .invalidGeometry reason => "invalid geometry: " ++ reason
  | .invalidSettings reason => "invalid ring configuration: " ++ reason
  | .invariantViolation reason => "ring invariant violated: " ++ reason

end RingFault

end MeshRing
