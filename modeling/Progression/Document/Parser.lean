import Progression.Document.Basic
import Progression.Failure
import Progression.Json.Reader

/-!
# Reading documents

The text of a document is JSON. Blanks are the characters from tab to carriage return and the space, at most 512
containers with contents are open at once, and escaped surrogates come in pairs.
-/

namespace Progression.Document

/-- A space or one of the characters from tab to carriage return. -/
def isBlank (c : Char) : Bool := c == ' ' || (9 ≤ c.toNat && c.toNat ≤ 13)

def dialect : Json.Dialect := ⟨isBlank, some 512, true, Decimal.allowsWhole⟩

/-- The document that a text writes. -/
def parse (s : String) : Except Json.SyntaxError Document := do
  match ofTree? (← Json.readTree dialect s.toList) with
  | some d => return d
  | none => throw .badSurrogates

/-- The document that a text writes, or the failure to read one. -/
def ofText (s : String) : Except Failure Document :=
  match parse s with
  | .ok d => .ok d
  | .error e => fail (.syntaxError e)

end Progression.Document
