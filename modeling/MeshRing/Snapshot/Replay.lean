import MeshRing.Ring.Insert
import MeshRing.Snapshot.Format

/-! A snapshot carries no indexes: loading replays its records through the unchecked pushes. -/

namespace MeshRing

namespace Snapshot

/-- Coordinates have to be finite in both directions: the first place that is not is refused. -/
def checkPlaces (s : Snapshot) : Except RingFault Unit :=
  s.places.forM fun place => requireFinite place.1 place.2

/-- Pushes all segments and then all triangles. -/
def pushAll (s : Snapshot) (r : Ring) : Logged Ring := do
  let r ← s.segments.foldlM Ring.pushSegment r
  s.triangles.foldlM Ring.pushTriangle r

/-- The ring of a snapshot. A place is refused only after all pushes, whose events stay reported. -/
def replay (s : Snapshot) : Logged (Except RingFault Ring) :=
  match Ring.ofSettings s.settings with
  | .error f => pure (.error f)
  | .ok r => do
    let r ← s.pushAll r
    return do
      s.checkPlaces
      return r

end Snapshot

namespace Ring

/-- The settings and the records of a ring, whatever their coordinates. -/
def snapshot (r : Ring) : Snapshot :=
  ⟨r.settings, r.segments.toList, r.triangles.toList⟩

def save (r : Ring) : Except RingFault Datum := do
  r.snapshot.checkPlaces
  return r.snapshot.toDatum

def load (d : Datum) : Logged (Except LoadFault Ring) :=
  match Snapshot.ofDatum d with
  | .error f => pure (.error f)
  | .ok s => do
    let r ← s.replay
    return r.mapError .refused

end Ring

end MeshRing
