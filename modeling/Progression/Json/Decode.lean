import Progression.Json.Strict

/-!
# Decoding records

A record is given as an object, or as an array of its fields in order. In an object a known field comes once at most
and unknown fields do not matter, unless the record is closed; an array may stop early, and no field is left over.
What a missing field means is decided field by field.
-/

namespace Progression.Json

/-- Reads a value of a type from a tree, if the tree describes one. -/
abbrev Decoder (α : Type) := Tree → Option α

namespace Decoder

def bool : Decoder Bool
  | .bool b => some b
  | _ => none

def text : Decoder String
  | .string ps => text? ps
  | _ => none

/-- A natural number below a bound, written as an integer. A minus sign is refused, also that of zero. -/
def natBelow (bound : Nat) : Decoder Nat
  | .number n =>
    if n.negative then none
    else n.natural?.filter (· < bound)
  | _ => none

def byte : Decoder UInt8 := fun t => (natBelow UInt8.size t).map Nat.toUInt8

def half : Decoder UInt16 := fun t => (natBelow UInt16.size t).map Nat.toUInt16

def word : Decoder UInt32 := fun t => (natBelow UInt32.size t).map Nat.toUInt32

/-- A count that fits 64 bits. -/
def count : Decoder Nat := natBelow UInt64.size

def single : Decoder Single
  | .number n => n.single?
  | _ => none

def list {α : Type} (d : Decoder α) : Decoder (List α)
  | .array items => items.mapM d
  | _ => none

/-- A member of a closed set, by its name alone or as an object with null under the name. -/
def variant {α : Type} (all : List α) (name : α → String) : Decoder α
  | .string ps => do
    let n ← text? ps
    all.find? (name · = n)
  | .object [(key, .null)] => do
    let n ← text? key
    all.find? (name · = n)
  | _ => none

end Decoder

/-- The fields that were given for a record. -/
structure Fields where
  /-- Whether they were given by their order. -/
  ordered : Bool
  given : List (String × Tree)

namespace Fields

/-- Takes in a member of an object; `names` are the known fields. -/
def addMember (names : List String) (isClosed : Bool) (given : List (String × Tree))
    (m : List Piece × Tree) : Option (List (String × Tree)) := do
  let key ← text? m.1
  if key ∈ names then
    if key ∈ given.map Prod.fst then none else some (given ++ [(key, m.2)])
  else if isClosed then none
  else some given

/-- The fields in a tree; `names` are the known ones in their order. -/
def ofTree? (names : List String) (isClosed : Bool) : Decoder Fields
  | .object members => do return ⟨false, ← members.foldlM (addMember names isClosed) []⟩
  | .array items => if items.length ≤ names.length then some ⟨true, names.zip items⟩ else none
  | _ => none

variable {α : Type} (f : Fields) (name : String) (d : Decoder α)

/-- A field that has to be there. -/
def required : Option α := f.given.lookup name >>= d

/-- A field that stands for `value` when it is missing. -/
def withDefault (value : α) : Option α :=
  match f.given.lookup name with
  | none => some value
  | some t => d t

/-- A field that may be null, and in an object also missing. -/
def optional : Option (Option α) :=
  match f.given.lookup name with
  | none => if f.ordered then none else some none
  | some .null => some none
  | some t => (d t).map some

end Fields

end Progression.Json
