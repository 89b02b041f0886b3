import MeshRing.Fault
import MeshRing.Snapshot.Datum

/-! Readers of data trees stop at the first fault they meet. -/

namespace MeshRing

/-- Why a tree cannot be read. -/
inductive LoadFault where
  /-- The datum is of the wrong sort. -/
  | invalidType
  /-- The datum is of the right sort but out of range. -/
  | invalidValue
  /-- A list has too few or too many items. -/
  | invalidLength
  | missingField (name : String)
  | unknownVariant (name : String)
  /-- The records were read and the ring refused them. -/
  | refused (reason : RingFault)
  deriving DecidableEq

/-- How data are read as values of a type. -/
abbrev Reader (α : Type) := Datum → Except LoadFault α

/-- Takes items from the front of a list. -/
abbrev ItemReader := StateT (List Datum) (Except LoadFault)

namespace Reader

variable {α : Type}

/-- Reads the next item, which has to be there. -/
def next (read : Reader α) : ItemReader α := do
  match ← get with
  | [] => throw .invalidLength
  | item :: rest =>
    set rest
    read item

/-- Reads items from the left; none may be left over. -/
def items (body : ItemReader α) (data : List Datum) : Except LoadFault α := do
  match ← body.run data with
  | (a, []) => return a
  | _ => throw .invalidLength

/-- A list of a fixed number of items. -/
def fixed (body : ItemReader α) : Reader α
  | .list data => items body data
  | _ => .error .invalidType

/-- A list of two items of one kind. -/
def two (read : Reader α) : Reader (α × α) :=
  fixed do
    let a ← next read
    let b ← next read
    return (a, b)

/-- A list of three items of one kind. -/
def three (read : Reader α) : Reader (α × α × α) :=
  fixed do
    let a ← next read
    let b ← next read
    let c ← next read
    return (a, b, c)

/-- A list of any number of items of one kind. -/
def list (read : Reader α) : Reader (List α)
  | .list data => data.mapM read
  | _ => .error .invalidType

/-- A record: its fields in order from a list, or by name from the entries of an object.
Keys that are no fields are passed over. -/
def record (inOrder : ItemReader α) (byName : List (String × Datum) → Except LoadFault α) :
    Reader α
  | .list data => items inOrder data
  | .object entries => byName entries
  | _ => .error .invalidType

/-- The field of an object, if it is there. The fields of an object are read in ascending
order of their names, and only then are absent ones noticed, in the order of the record. -/
def field? (entries : List (String × Datum)) (name : String) (read : Reader α) :
    Except LoadFault (Option α) :=
  match entries.lookup name with
  | some datum => some <$> read datum
  | none => .ok none

/-- A field that has to be there. -/
def require (name : String) : Option α → Except LoadFault α
  | some a => .ok a
  | none => .error (.missingField name)

def named (ofName? : String → Option α) (name : String) : Except LoadFault α :=
  match ofName? name with
  | some a => .ok a
  | none => .error (.unknownVariant name)

/-- One of several named variants: its name, or an object that holds null under that name alone. The
name is looked at before what it holds. -/
def variant (ofName? : String → Option α) : Reader α
  | .text name => named ofName? name
  | .object [(name, content)] => do
    let a ← named ofName? name
    match content with
    | .null => return a
    | _ => throw .invalidType
  | .object _ => .error .invalidValue
  | _ => .error .invalidType

end Reader

end MeshRing
