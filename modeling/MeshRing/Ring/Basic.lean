import Std.Data.ExtTreeMap
import Std.Data.ExtTreeSet
import MeshRing.Event
import MeshRing.Settings

/-! Records are stored in the order they come and never removed. Later records never move a
node that has a place. -/

namespace MeshRing

abbrev PlaceMap := Std.ExtTreeMap Node Point

/-- Keys of records: nodes in ascending order. -/
abbrev KeySet := Std.ExtTreeSet (List Node)

/-- The records of a ring and four indexes over them: the places of nodes, from segment
ends and from triangle apexes apart, and the keys of each kind. The defaults are those
of an empty ring. -/
structure Ring where
  settings : Settings := {}
  segments : Array Segment := #[]
  triangles : Array Triangle := #[]
  /-- The first place of each node that ends a segment. -/
  ends : PlaceMap := ∅
  /-- The first place of each node that is the apex of a triangle. -/
  apexes : PlaceMap := ∅
  segmentKeys : KeySet := ∅
  triangleKeys : KeySet := ∅

namespace Ring

def empty : Ring := {}

def withCapacity (segments triangles : Nat) : Ring where
  segments := .emptyWithCapacity segments
  triangles := .emptyWithCapacity triangles

/-- An empty ring with settings, which have to be valid. -/
def ofSettings (s : Settings) : Except RingFault Ring := do
  s.check
  return { settings := s }

/-- Rings are equal when their settings agree as numbers and their records are identical,
bit for bit and in order, so a ring that holds a NaN equals itself. -/
instance : BEq Ring where
  beq r s := r.settings.numEq s.settings && r.segments == s.segments && r.triangles == s.triangles

def isEmpty (r : Ring) : Bool :=
  r.segments.isEmpty && r.triangles.isEmpty

/-- Stores a segment unchecked. -/
def pushSegment (r : Ring) (s : Segment) : Logged Ring where
  value := { r with
    segments := r.segments.push s
    ends := (r.ends.insertIfNew s.n0 s.p0).insertIfNew s.n1 s.p1
    segmentKeys := r.segmentKeys.insert s.key }
  events := [.storedSegment s.n0 s.n1 (r.segments.size + 1)]

/-- Stores a triangle unchecked. -/
def pushTriangle (r : Ring) (t : Triangle) : Logged Ring where
  value := { r with
    triangles := r.triangles.push t
    apexes := r.apexes.insertIfNew t.n2 t.apex
    triangleKeys := r.triangleKeys.insert t.key }
  events := [.storedTriangle t.n0 t.n1 t.n2 (r.triangles.size + 1)]

end Ring

end MeshRing
