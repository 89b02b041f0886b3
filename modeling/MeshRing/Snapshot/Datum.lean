import MeshRing.Binary64

/-! The self-describing trees in which rings are exchanged. -/

namespace MeshRing

/-- Integers and binary64 numbers are different data, and an object has one entry per key. -/
inductive Datum where
  | null
  | bool (b : Bool)
  | int (n : Int)
  | float (x : Binary64)
  | text (s : String)
  | list (items : List Datum)
  | object (entries : List (String × Datum))
  deriving Inhabited

end MeshRing
