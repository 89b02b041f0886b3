import MeshRing.Node
import MeshRing.Plane.Point

/-! # Records of a ring -/

namespace MeshRing

inductive RecordKind where
  | segment
  | triangle
  deriving DecidableEq

def RecordKind.text : RecordKind → String
  | .segment => "segment"
  | .triangle => "triangle"

/-- A boundary segment `n0 → n1` and the places of its ends. -/
structure Segment where
  n0 : Node
  n1 : Node
  p0 : Point
  p1 : Point
  deriving DecidableEq

namespace Segment

def nodes (s : Segment) : List Node :=
  [s.n0, s.n1]

/-- The nodes that the segment places, in order. -/
def places (s : Segment) : List (Node × Point) :=
  [(s.n0, s.p0), (s.n1, s.p1)]

def contains (s : Segment) (n : Node) : Bool :=
  s.nodes.contains n

/-- The nodes in ascending order, so a key does not depend on direction. -/
def key (s : Segment) : List Node :=
  Node.ascending s.nodes

/-- The segment joins `m` and `n`, in either direction. -/
def joins (s : Segment) (m n : Node) : Bool :=
  s.key == Node.ascending [m, n]

def length (s : Segment) : Float :=
  s.p0.distance s.p1

def numEq (s t : Segment) : Bool :=
  s.nodes == t.nodes && s.p0.numEq t.p0 && s.p1.numEq t.p1

end Segment

/-- A fill triangle over three nodes and the place of the third one, its apex. -/
structure Triangle where
  n0 : Node
  n1 : Node
  n2 : Node
  apex : Point
  deriving DecidableEq

namespace Triangle

def nodes (t : Triangle) : List Node :=
  [t.n0, t.n1, t.n2]

/-- The one node that the triangle places. -/
def place (t : Triangle) : Node × Point :=
  (t.n2, t.apex)

def contains (t : Triangle) (n : Node) : Bool :=
  t.nodes.contains n

def key (t : Triangle) : List Node :=
  Node.ascending t.nodes

def numEq (s t : Triangle) : Bool :=
  s.nodes == t.nodes && s.apex.numEq t.apex

end Triangle

end MeshRing
