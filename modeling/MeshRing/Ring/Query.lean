import MeshRing.Plane.Side
import MeshRing.Ring.Basic

/-! # Queries -/

namespace MeshRing.Ring

def segmentAt (r : Ring) (i : Nat) : Except RingFault Segment :=
  match r.segments[i]? with
  | some s => .ok s
  | none => .error (.indexOutOfRange .segment i r.segments.size)

def triangleAt (r : Ring) (i : Nat) : Except RingFault Triangle :=
  match r.triangles[i]? with
  | some t => .ok t
  | none => .error (.indexOutOfRange .triangle i r.triangles.size)

/-- A stored segment joins `m` and `n`, in either direction. -/
def joins (r : Ring) (m n : Node) : Bool :=
  r.segmentKeys.contains (Node.ascending [m, n])

/-- A stored triangle spans the three nodes, in any order. -/
def spans (r : Ring) (l m n : Node) : Bool :=
  r.triangleKeys.contains (Node.ascending [l, m, n])

/-- The place of a node that ends a segment, as the first such segment gave it. -/
def endPlace? (r : Ring) (n : Node) : Option Point :=
  r.ends[n]?

/-- The place of a node: from the segments or else from the apexes of triangles. -/
def place? (r : Ring) (n : Node) : Option Point :=
  (r.endPlace? n).or r.apexes[n]?

/-- The place of a node that has to have one. -/
def place (r : Ring) (n : Node) : Except RingFault Point :=
  match r.place? n with
  | some p => .ok p
  | none => .error (.missingNode n)

/-- The segment from `p` at node `m` to `q` at node `n` properly crosses a stored segment
that has neither node. -/
def crosses (r : Ring) (m n : Node) (p q : Point) : Bool :=
  r.segments.any fun s =>
    !s.contains m && !s.contains n && Point.crossing p q s.p0 s.p1 r.settings.tolerance

/-- The corners of a stored triangle: its first two nodes where the ring places them,
and its own apex. -/
def corners (r : Ring) (i : Nat) : Except RingFault Corners := do
  let t ← r.triangleAt i
  let a ← r.place t.n0
  let b ← r.place t.n1
  return ⟨a, b, t.apex⟩

def areaAt (r : Ring) (i : Nat) : Except RingFault Float := do
  let t ← r.corners i
  return t.area

def metricsAt (r : Ring) (i : Nat) : Except RingFault Metrics := do
  let t ← r.corners i
  (t.metrics r.settings.tolerance).mapError .ofGeometry

def validMetricsAt (r : Ring) (i : Nat) : Except RingFault Metrics := do
  let t ← r.corners i
  (t.validMetrics r.settings.tolerance).mapError .ofGeometry

end MeshRing.Ring
