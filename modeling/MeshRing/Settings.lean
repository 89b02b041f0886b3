import MeshRing.Fault

/-! Queries read the tolerance, and checked inserts read the duplicate policy. -/

namespace MeshRing

/-- What a checked insert does with a record that is stored already. -/
inductive DuplicatePolicy where
  /-- Store it. -/
  | ignore
  /-- Store it and log a warning. -/
  | warn
  /-- Refuse it. -/
  | error
  deriving DecidableEq

/-- Unchecked pushes read neither of the two settings. -/
structure Settings where
  /-- A length: what lies within it counts as touching or flat. -/
  tolerance : Float := 1e-12
  duplicates : DuplicatePolicy := .warn
  deriving DecidableEq

namespace Settings

/-- The default tolerance, with duplicates refused. -/
def strict : Settings where
  duplicates := .error

def numEq (s t : Settings) : Bool :=
  s.tolerance == t.tolerance && s.duplicates == t.duplicates

/-- A tolerance has to be finite and not negative. -/
def check (s : Settings) : Except RingFault Unit :=
  if !s.tolerance.isFinite || s.tolerance < 0.0 then
    .error (.invalidSettings
      ("tolerance must be finite and non-negative, got " ++ measureText s.tolerance))
  else .ok ()

end Settings

end MeshRing
