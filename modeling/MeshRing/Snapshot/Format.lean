import MeshRing.Settings
import MeshRing.Snapshot.Reader

/-! How rings are written as data trees and read back. Reading does not validate. -/

namespace MeshRing

namespace Node

def toDatum (n : Node) : Datum :=
  .int n.index.toNat

def ofDatum : Reader Node
  | .int n => if 0 ≤ n ∧ n.toNat < UInt32.size then .ok ⟨.ofNat n.toNat⟩ else .error .invalidValue
  | _ => .error .invalidType

end Node

/-- A number, or an integer rounded to the nearest number. -/
def Binary64.ofDatum : Reader Binary64
  | .float x => .ok x
  | .int n => .ok (.ofInt n)
  | _ => .error .invalidType

namespace Point

def toDatum (p : Point) : Datum :=
  .list [.float p.u, .float p.v]

def ofDatum : Reader Point := fun d => do
  let (u, v) ← Reader.two Binary64.ofDatum d
  return ⟨u, v⟩

end Point

namespace RecordKind

def name : RecordKind → String
  | .segment => "Segment"
  | .triangle => "Triangle"

def ofName? (s : String) : Option RecordKind :=
  [segment, triangle].find? (·.name == s)

def ofDatum : Reader RecordKind :=
  .variant ofName?

end RecordKind

namespace DuplicatePolicy

def name : DuplicatePolicy → String
  | .ignore => "Ignore"
  | .warn => "Warn"
  | .error => "Error"

def ofName? (s : String) : Option DuplicatePolicy :=
  [ignore, warn, error].find? (·.name == s)

def ofDatum : Reader DuplicatePolicy :=
  .variant ofName?

end DuplicatePolicy

namespace Settings

def toDatum (s : Settings) : Datum :=
  .object [("tolerance", .float (.ofFloat s.tolerance)), ("duplicates", .text s.duplicates.name)]

def ofDatum : Reader Settings :=
  .record
    (do
      let tolerance ← Reader.next Binary64.ofDatum
      let duplicates ← Reader.next DuplicatePolicy.ofDatum
      return ⟨tolerance.toFloat, duplicates⟩)
    (fun entries => do
      let duplicates? ← Reader.field? entries "duplicates" DuplicatePolicy.ofDatum
      let tolerance? ← Reader.field? entries "tolerance" Binary64.ofDatum
      let tolerance ← Reader.require "tolerance" tolerance?
      let duplicates ← Reader.require "duplicates" duplicates?
      return ⟨tolerance.toFloat, duplicates⟩)

end Settings

namespace Segment

def toDatum (s : Segment) : Datum :=
  .object [
    ("nodes", .list [s.n0.toDatum, s.n1.toDatum]),
    ("uv", .list [s.p0.toDatum, s.p1.toDatum])]

def ofDatum : Reader Segment :=
  .record
    (do
      let (n0, n1) ← Reader.next (Reader.two Node.ofDatum)
      let (p0, p1) ← Reader.next (Reader.two Point.ofDatum)
      return ⟨n0, n1, p0, p1⟩)
    (fun entries => do
      let nodes? ← Reader.field? entries "nodes" (Reader.two Node.ofDatum)
      let places? ← Reader.field? entries "uv" (Reader.two Point.ofDatum)
      let (n0, n1) ← Reader.require "nodes" nodes?
      let (p0, p1) ← Reader.require "uv" places?
      return ⟨n0, n1, p0, p1⟩)

end Segment

namespace Triangle

def toDatum (t : Triangle) : Datum :=
  .object [
    ("nodes", .list [t.n0.toDatum, t.n1.toDatum, t.n2.toDatum]),
    ("uv2", t.apex.toDatum)]

def ofDatum : Reader Triangle :=
  .record
    (do
      let (n0, n1, n2) ← Reader.next (Reader.three Node.ofDatum)
      let apex ← Reader.next Point.ofDatum
      return ⟨n0, n1, n2, apex⟩)
    (fun entries => do
      let nodes? ← Reader.field? entries "nodes" (Reader.three Node.ofDatum)
      let apex? ← Reader.field? entries "uv2" Point.ofDatum
      let (n0, n1, n2) ← Reader.require "nodes" nodes?
      let apex ← Reader.require "uv2" apex?
      return ⟨n0, n1, n2, apex⟩)

end Triangle

/-- What a snapshot of a ring holds: its settings and its records in the order they came. -/
structure Snapshot where
  settings : Settings
  segments : List Segment
  triangles : List Triangle
  deriving DecidableEq

namespace Snapshot

/-- Every node that a record places, in the order of the records. -/
def places (s : Snapshot) : List (Node × Point) :=
  s.segments.flatMap Segment.places ++ s.triangles.map Triangle.place

def toDatum (s : Snapshot) : Datum :=
  .object [
    ("config", s.settings.toDatum),
    ("segments", .list (s.segments.map Segment.toDatum)),
    ("triangles", .list (s.triangles.map Triangle.toDatum))]

/-- In an object the settings may be absent and are then the default. -/
def ofDatum : Reader Snapshot :=
  .record
    (do
      let settings ← Reader.next Settings.ofDatum
      let segments ← Reader.next (Reader.list Segment.ofDatum)
      let triangles ← Reader.next (Reader.list Triangle.ofDatum)
      return ⟨settings, segments, triangles⟩)
    (fun entries => do
      let settings? ← Reader.field? entries "config" Settings.ofDatum
      let segments? ← Reader.field? entries "segments" (Reader.list Segment.ofDatum)
      let triangles? ← Reader.field? entries "triangles" (Reader.list Triangle.ofDatum)
      let segments ← Reader.require "segments" segments?
      let triangles ← Reader.require "triangles" triangles?
      return ⟨settings?.getD {}, segments, triangles⟩)

end Snapshot

end MeshRing
