import MeshRing.Ring.Basic

/-! The indexes of a ring are determined by its records, and an audit computes them anew. -/

namespace MeshRing.Ring

/-- The first place of each node, in the order of the list. -/
def firstPlaces (places : List (Node × Point)) : PlaceMap :=
  places.foldl (fun index place => index.insertIfNew place.1 place.2) ∅

/-- The first place of each node that ends one of the segments; `n0` comes before `n1`. -/
def endsOf (segments : Array Segment) : PlaceMap :=
  firstPlaces (segments.toList.flatMap Segment.places)

/-- The first place of each node that is the apex of one of the triangles. -/
def apexesOf (triangles : Array Triangle) : PlaceMap :=
  firstPlaces (triangles.toList.map Triangle.place)

def keysOfSegments (segments : Array Segment) : KeySet :=
  .ofList (segments.toList.map Segment.key)

def keysOfTriangles (triangles : Array Triangle) : KeySet :=
  .ofList (triangles.toList.map Triangle.key)

/-- An index that disagrees with the records, with its size and the size that the records imply. -/
def disagreement (index : String) (size implied : Nat) : RingFault :=
  .invariantViolation
    (index ++ " has " ++ toString size ++ " entries, records imply " ++ toString implied)

/-- The settings are valid and every index is the one that the records imply. -/
def audit (r : Ring) : Except RingFault Unit := do
  r.settings.check
  let ends := endsOf r.segments
  if r.ends ≠ ends then throw (disagreement "segment node index" r.ends.size ends.size)
  let apexes := apexesOf r.triangles
  if r.apexes ≠ apexes then throw (disagreement "apex node index" r.apexes.size apexes.size)
  let segmentKeys := keysOfSegments r.segments
  if r.segmentKeys ≠ segmentKeys then
    throw (disagreement "segment key set" r.segmentKeys.size segmentKeys.size)
  let triangleKeys := keysOfTriangles r.triangles
  if r.triangleKeys ≠ triangleKeys then
    throw (disagreement "triangle key set" r.triangleKeys.size triangleKeys.size)

/-- Looks at the newest record only: it is indexed, and there are no more keys than segments. -/
def auditLastSegment (r : Ring) : Except RingFault Unit :=
  match r.segments.back? with
  | none => .error (.invariantViolation "no segment after add")
  | some s =>
    if s.nodes.all r.ends.contains && r.segmentKeys.contains s.key
        && decide (r.segmentKeys.size ≤ r.segments.size) then .ok ()
    else .error (.invariantViolation
      ("segment " ++ s.n0.text ++ "-" ++ s.n1.text ++ " missing from the ring index"))

def auditLastTriangle (r : Ring) : Except RingFault Unit :=
  match r.triangles.back? with
  | none => .error (.invariantViolation "no triangle after add")
  | some t =>
    if r.apexes.contains t.n2 && r.triangleKeys.contains t.key
        && decide (r.triangleKeys.size ≤ r.triangles.size) then .ok ()
    else .error (.invariantViolation
      ("triangle " ++ t.n0.text ++ "-" ++ t.n1.text ++ "-" ++ t.n2.text ++
        " missing from the ring index"))

end MeshRing.Ring
