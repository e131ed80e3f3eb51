import Progression.Token

/-!
# Requirements

A requirement says what has to be held. It is free, a single atom, or an expression: clauses of which one has to
hold, each made of terms that all have to hold. A missing term is a placeholder, which always holds. No clause and no
expression is empty.
-/

namespace Progression

inductive Atom
  | item (id : ItemId)
  | flag (name : Name)
  | literal (value : Bool)
  /-- A name, to be looked up among the definitions or the rules of the settings. -/
  | reference (name : Name)
  deriving DecidableEq, Repr

/-- Terms joined by "and". -/
structure Clause where
  terms : List (Option Atom)
  terms_ne_nil : terms ≠ []
  deriving DecidableEq

/-- Clauses joined by "or". -/
structure Expression where
  clauses : List Clause
  clauses_ne_nil : clauses ≠ []
  deriving DecidableEq

inductive Requirement
  | free
  | atom (a : Atom)
  | expression (e : Expression)
  deriving DecidableEq

def Clause.of? (terms : List (Option Atom)) : Option Clause :=
  if h : terms ≠ [] then some ⟨terms, h⟩ else none

def Expression.of? (clauses : List Clause) : Option Expression :=
  if h : clauses ≠ [] then some ⟨clauses, h⟩ else none

/-- The token that holding an atom means, for an item or a flag. -/
def Atom.token? : Atom → Option Token
  | item id => some (.item id)
  | flag name => some (.flag name)
  | literal _ => none
  | reference _ => none

/-- The name that an atom refers to. -/
def Atom.reference? : Atom → Option Name
  | reference name => some name
  | item _ => none
  | flag _ => none
  | literal _ => none

namespace Requirement

/-- The atoms of a requirement, in the order of its text. -/
def atoms : Requirement → List Atom
  | free => []
  | atom a => [a]
  | expression e => e.clauses.flatMap fun c => c.terms.filterMap id

/-- The names that a requirement refers to, in the order of its text, repetitions kept. -/
def references (r : Requirement) : List Name :=
  r.atoms.filterMap Atom.reference?

/-- One clause that asks for every one of the names; free when there are none. -/
def allOf : List String → Requirement
  | [] => free
  | n :: ns =>
    .expression ⟨[⟨(n :: ns).map fun m => some (.reference (Name.ofText m)), by simp⟩], by simp⟩

theorem references_allOf (ns : List String) : (allOf ns).references = ns.map Name.ofText := by
  cases ns with
  | nil => rfl
  | cons n ns =>
    simp only [allOf, references, atoms, List.flatMap_cons, List.flatMap_nil, List.append_nil]
    rw [List.filterMap_map, List.filterMap_filterMap]
    simp [Atom.reference?]

end Requirement

end Progression
