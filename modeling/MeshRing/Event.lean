import MeshRing.Fault

/-! What a ring reports while it is filled. -/

namespace MeshRing

/-- One trace for each stored record, and one warning for each duplicate that is kept. -/
inductive Event where
  /-- A segment was stored, and `count` are stored now. -/
  | storedSegment (n0 n1 : Node) (count : Nat)
  /-- A triangle was stored, and `count` are stored now. -/
  | storedTriangle (n0 n1 n2 : Node) (count : Nat)
  /-- A duplicate is about to be stored. -/
  | keptDuplicate (duplicate : RingFault)
  deriving DecidableEq

namespace Event

def level : Event → String
  | .storedSegment .. | .storedTriangle .. => "TRACE"
  | .keptDuplicate _ => "WARN"

def text : Event → String
  | .storedSegment n0 n1 count =>
    "ring: added segment " ++ n0.text ++ "-" ++ n1.text ++ " (segments = " ++ toString count ++ ")"
  | .storedTriangle n0 n1 n2 count =>
    "ring: added triangle " ++ n0.text ++ "-" ++ n1.text ++ "-" ++ n2.text ++
      " (triangles = " ++ toString count ++ ")"
  | .keptDuplicate duplicate => duplicate.text ++ "; storing it anyway"

def line (e : Event) : String :=
  e.level ++ " " ++ e.text

end Event

/-- A value and the events of the steps that made it, oldest first. -/
structure Logged (α : Type) where
  value : α
  events : List Event

namespace Logged

instance : Monad Logged where
  pure a := ⟨a, []⟩
  bind x f := ⟨(f x.value).value, x.events ++ (f x.value).events⟩

@[simp] theorem value_pure {α : Type} (a : α) : (pure a : Logged α).value = a := rfl

@[simp] theorem events_pure {α : Type} (a : α) : (pure a : Logged α).events = [] := rfl

@[simp] theorem value_bind {α β : Type} (x : Logged α) (f : α → Logged β) :
    (x >>= f).value = (f x.value).value := rfl

@[simp] theorem events_bind {α β : Type} (x : Logged α) (f : α → Logged β) :
    (x >>= f).events = x.events ++ (f x.value).events := rfl

instance : LawfulMonad Logged :=
  .mk' _ (fun _ => by simp [Functor.map]) (fun _ _ => by simp [bind, pure])
    (fun _ _ _ => by simp [bind])

/-- Reports events before a value. -/
def after {α : Type} (earlier : List Event) (x : Logged α) : Logged α :=
  { x with events := earlier ++ x.events }

end Logged

end MeshRing
