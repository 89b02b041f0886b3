import MeshRing.Ring.Insert

/-! The four ways to store a record, as data, so that histories of a ring are lists. -/

namespace MeshRing

inductive Edit where
  | pushSegment (s : Segment)
  | pushTriangle (t : Triangle)
  | insertSegment (s : Segment)
  | insertTriangle (t : Triangle)
  deriving DecidableEq

/-- What one edit did: the ring after it, the events on the way and the answer to the caller. -/
structure Step where
  ring : Ring
  events : List Event
  answer : Except RingFault Unit

namespace Step

def stored (x : Logged Ring) : Step :=
  ⟨x.value, x.events, .ok ()⟩

/-- The step of a checked insert into `r`. A refused one leaves the ring as it was. -/
def ofInsert (r : Ring) : Except RingFault (Logged Ring) → Step
  | .ok x => stored x
  | .error f => ⟨r, [], .error f⟩

end Step

namespace Ring

def apply (r : Ring) : Edit → Step
  | .pushSegment s => .stored (r.pushSegment s)
  | .pushTriangle t => .stored (r.pushTriangle t)
  | .insertSegment s => .ofInsert r (r.insertSegment s)
  | .insertTriangle t => .ofInsert r (r.insertTriangle t)

def run (r : Ring) (edits : List Edit) : Ring :=
  edits.foldl (fun r e => (r.apply e).ring) r

end Ring

end MeshRing
