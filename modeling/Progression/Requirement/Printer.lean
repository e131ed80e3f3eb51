import Progression.Requirement.Basic

/-!
# The text of a requirement

Clauses stand between `|`, their terms between `&`. A pickup is written in base sixteen after `0x`, a placeholder as
an underscore.
-/

namespace Progression

/-- The sign between clauses. -/
def Expression.separator : Char := '|'

/-- The sign between the terms of a clause. -/
def Clause.separator : Char := '&'

/-- A separator with a space at each side. -/
def spaced (sep : Char) : String := String.ofList [' ', sep, ' ']

def Atom.display : Atom → String
  | item id => "0x" ++ String.ofList (Hexadecimal.digits 1 id.toNat)
  | flag name => name
  | literal true => "true"
  | literal false => "false"
  | reference name => name

def Clause.display (c : Clause) : String :=
  (spaced separator).intercalate (c.terms.map fun t => t.elim "_" Atom.display)

def Expression.display (e : Expression) : String :=
  (spaced separator).intercalate (e.clauses.map Clause.display)

def Requirement.display : Requirement → String
  | free => "free"
  | atom a => a.display
  | expression e => e.display

end Progression
