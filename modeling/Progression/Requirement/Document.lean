import Progression.Document.Printer
import Progression.Requirement.Parser

/-!
# Requirements in documents

In a document null is free, a truth value is a literal, a number is a pickup, and a text is read as a requirement.
-/

namespace Progression

/-- The requirement that a document describes, where `flags` are the names of flags. -/
def Requirement.ofDocument (flags : FlagNames) : Document → Except Failure Requirement
  | .null => .ok .free
  | .bool b => .ok (.atom (.literal b))
  | .number d =>
    match d.toWord? with
    | some id => .ok (.atom (.item id))
    | none => fail (.noItemId (Document.number d).display)
  | .text s => Requirement.ofText flags s
  | d => fail (.noRequirement d.display)

end Progression
