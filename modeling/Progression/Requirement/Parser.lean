import Progression.Failure
import Progression.FlagNames
import Progression.Requirement.Printer

/-!
# Reading the text of a requirement

A blank text is free, and a text that is as a whole the name of a flag is that flag. Any other text is cut at `|` and
each piece at `&`; separators at the end of a text or of a piece are ignored. A blank term is a placeholder; there
are no groups.
-/

namespace Progression

/-- Signs that would group terms, which requirements do not have. -/
def groupingSigns : List Char := ['(', ')', '[', ']', '\x7b', '\x7d']

/-- The atom that a name stands for. -/
def Atom.ofName (flags : FlagNames) (n : Name) : Atom :=
  if n ∈ flags then .flag n else .reference n

/-- Reads one term; a blank one is a placeholder. -/
def Atom.ofTerm (flags : FlagNames) (s : List Char) : Except Failure (Option Atom) :=
  let n := Text.normalize s
  if n = [] then .ok none
  else if n.any (· ∈ groupingSigns) then fail (.grouping (String.ofList (Text.trim s)))
  else .ok (some (ofName flags (String.ofList n)))

/-- Reads one clause of a requirement with the text `whole`. -/
def Clause.ofPiece (flags : FlagNames) (whole : String) (s : List Char) : Except Failure Clause := do
  let terms ← (Text.pieces separator s).mapM (Atom.ofTerm flags)
  match Clause.of? terms with
  | some c => return c
  | none => within (.requirement whole) (fail .clauseWithoutTerms)

def Expression.ofText (flags : FlagNames) (s : String) : Except Failure Expression := do
  let clauses ← (Text.pieces separator s.toList).mapM (Clause.ofPiece flags s)
  match Expression.of? clauses with
  | some e => return e
  | none => within (.requirement s) (fail .expressionWithoutClauses)

/-- The requirement that a text writes, where `flags` are the names of flags. -/
def Requirement.ofText (flags : FlagNames) (s : String) : Except Failure Requirement :=
  if Text.trim s.toList = [] then .ok .free
  else if Name.ofText s ∈ flags then .ok (.atom (.flag (Name.ofText s)))
  else (Expression.ofText flags s).map .expression

end Progression
