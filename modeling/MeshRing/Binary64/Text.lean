import MeshRing.Binary64
import MeshRing.Decimal.Layout

/-! Every number is written by its shortest decimal, and the sign of a zero is kept. -/

namespace MeshRing

namespace Binary64

def signText (negative : Bool) : String :=
  if negative then "-" else ""

def text (l : Decimal.Layout) (x : Binary64) : String :=
  match x.value with
  | .nan => "NaN"
  | .infinite negative => signText negative ++ "inf"
  | .finite negative significand shift =>
    signText negative ++ String.ofList (l.text (.ofBinary significand shift))

end Binary64

/-- The text of a length, an area, an angle or a tolerance. -/
def measureText (x : Float) : String :=
  (Binary64.ofFloat x).text .measure

end MeshRing
