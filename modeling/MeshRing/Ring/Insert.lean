import MeshRing.Ring.Query

/-! # Checked inserts -/

namespace MeshRing

/-- A place given to a node has to be finite. -/
def requireFinite (n : Node) (p : Point) : Except RingFault Unit :=
  if p.isFinite then .ok () else .error (.nonFiniteCoordinate n p)

/-- What the policy makes of a duplicate: it is refused, or kept with these events. -/
def DuplicatePolicy.settle (policy : DuplicatePolicy) (duplicate : RingFault) :
    Except RingFault (List Event) :=
  match policy with
  | .ignore => .ok []
  | .warn => .ok [.keptDuplicate duplicate]
  | .error => .error duplicate

namespace Ring

/-- Refuses a loop and an end that is not finite, and treats a duplicate as the settings
say. A refused segment changes nothing and logs nothing. -/
def insertSegment (r : Ring) (s : Segment) : Except RingFault (Logged Ring) := do
  if s.n0 = s.n1 then throw (.degenerateSegment s.n0)
  requireFinite s.n0 s.p0
  requireFinite s.n1 s.p1
  let warnings ←
    if r.joins s.n0 s.n1 then r.settings.duplicates.settle (.duplicateSegment s.n0 s.n1)
    else pure []
  return (r.pushSegment s).after warnings

/-- The same for a triangle, which places its apex alone. -/
def insertTriangle (r : Ring) (t : Triangle) : Except RingFault (Logged Ring) := do
  if t.n0 = t.n1 ∨ t.n0 = t.n2 ∨ t.n1 = t.n2 then throw (.degenerateTriangle t.n0 t.n1 t.n2)
  requireFinite t.n2 t.apex
  let warnings ←
    if r.spans t.n0 t.n1 t.n2 then
      r.settings.duplicates.settle (.duplicateTriangle t.n0 t.n1 t.n2)
    else pure []
  return (r.pushTriangle t).after warnings

end Ring

end MeshRing
