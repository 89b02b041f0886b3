import MeshRing.Binary64.Text

/-! The `(u, v)` plane. Every operation is rounded on its own, in the order written. -/

namespace MeshRing

/-- A point of the parameter plane. Equality is identity of bits; `numEq` compares the numbers. -/
structure Point where
  u : Binary64
  v : Binary64
  deriving DecidableEq, Inhabited

structure Offset where
  du : Float
  dv : Float
  deriving DecidableEq

namespace Offset

def dot (a b : Offset) : Float :=
  a.du * b.du + a.dv * b.dv

/-- The component of the cross product that leaves the plane. -/
def cross (a b : Offset) : Float :=
  a.du * b.dv - a.dv * b.du

def length (a : Offset) : Float :=
  (a.dot a).sqrt

end Offset

namespace Point

def isFinite (p : Point) : Bool :=
  p.u.isFinite && p.v.isFinite

def numEq (p q : Point) : Bool :=
  p.u.numEq q.u && p.v.numEq q.v

def fromOrigin (p : Point) : Offset :=
  ⟨p.u.toFloat, p.v.toFloat⟩

/-- The displacement that leads from `q` to `p`. -/
def sub (p q : Point) : Offset :=
  ⟨p.u.toFloat - q.u.toFloat, p.v.toFloat - q.v.toFloat⟩

instance : HSub Point Point Offset := ⟨sub⟩

def distance (p q : Point) : Float :=
  (p - q).length

/-- Twice the area of the triangle `a b c`, positive when it runs counter-clockwise. -/
def doubleArea (a b c : Point) : Float :=
  (b - a).cross (c - a)

/-- The area of the triangle `a b c`, positive when it runs counter-clockwise. -/
def area (a b c : Point) : Float :=
  0.5 * doubleArea a b c

def text (p : Point) : String :=
  "[" ++ p.u.text .coordinate ++ ", " ++ p.v.text .coordinate ++ "]"

end Point

end MeshRing
