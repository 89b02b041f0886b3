import MeshRing.Ring.Audit
import MeshRing.Ring.Edit
import MeshRing.Snapshot.Replay

/-! The operations with audits switched on: a violation stops the program with a message. -/

namespace MeshRing

/-- What an audited operation comes to: its result, or the message that it stops with. -/
abbrev Audited (α : Type) := Except String α

/-- Passes a result on unless its audit found a violation. -/
def Audited.pass {α : Type} (operation : String) (audit : Except RingFault Unit) (a : α) :
    Audited α :=
  match audit with
  | .ok () => .ok a
  | .error f => .error ("[ring invariants] " ++ operation ++ ": " ++ f.text)

namespace Ring

/-- Audits the ring of a checked insert that was accepted. -/
def auditInsert (operation : String) (audit : Ring → Except RingFault Unit) :
    Except RingFault (Logged Ring) → Audited (Except RingFault (Logged Ring))
  | .ok x => .pass operation (audit x.value) (.ok x)
  | .error f => .ok (.error f)

/-- The newest segment is audited; a refused one has changed nothing. -/
def auditedInsertSegment (r : Ring) (s : Segment) : Audited (Except RingFault (Logged Ring)) :=
  auditInsert "try_add_segment" auditLastSegment (r.insertSegment s)

def auditedInsertTriangle (r : Ring) (t : Triangle) : Audited (Except RingFault (Logged Ring)) :=
  auditInsert "try_add_triangle" auditLastTriangle (r.insertTriangle t)

def auditedApply (r : Ring) : Edit → Audited Step
  | .pushSegment s => .ok (.stored (r.pushSegment s))
  | .pushTriangle t => .ok (.stored (r.pushTriangle t))
  | .insertSegment s => (r.auditedInsertSegment s).map (.ofInsert r)
  | .insertTriangle t => (r.auditedInsertTriangle t).map (.ofInsert r)

/-- A load audits the whole ring before it hands it out. -/
def auditedLoad (d : Datum) : Audited (Logged (Except LoadFault Ring)) :=
  match (load d).value with
  | .ok r => .pass "debug_assert_invariants" r.audit (load d)
  | .error _ => .ok (load d)

end Ring

end MeshRing
