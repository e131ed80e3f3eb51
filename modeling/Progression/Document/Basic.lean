import Progression.Document.Decimal
import Progression.Table

/-!
# Documents

A document is a JSON value whose objects keep their members in the order in which the keys first came; a key that
comes again replaces the value it had.
-/

namespace Progression

inductive Document
  | null
  | bool (value : Bool)
  | number (d : Decimal)
  | text (s : String)
  | array (items : List Document)
  | object (members : List (String × Document))

namespace Document

mutual

/-- What a tree means, if each of its strings is a text. -/
def ofTree? : Json.Tree → Option Document
  | .null => some .null
  | .bool b => some (.bool b)
  | .number n => some (.number (.ofNumber n))
  | .string ps => (Json.text? ps).map .text
  | .array items => (ofItems? items).map .array
  | .object members => (ofMembers? [] members).map .object

def ofItems? : List Json.Tree → Option (List Document)
  | [] => some []
  | t :: ts => do return (← ofTree? t) :: (← ofItems? ts)

/-- Takes further members into an object that has some already. -/
def ofMembers? (before : List (String × Document)) :
    List (List Json.Piece × Json.Tree) → Option (List (String × Document))
  | [] => some before
  | (key, t) :: ts => do ofMembers? (setEntry (← Json.text? key) (← ofTree? t) before) ts

end

/-- The members of an object. -/
def members? : Document → Option (List (String × Document))
  | object members => some members
  | _ => none

def isNull : Document → Bool
  | null => true
  | _ => false

/-- The value of a key; null when there is none. -/
def member (d : Document) (key : String) : Document :=
  match d.members? with
  | some members => (members.lookup key).getD .null
  | none => .null

end Document

end Progression
