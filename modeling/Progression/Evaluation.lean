import Progression.Inventory
import Progression.Settings
import Progression.World.Basic

/-!
# Deciding requirements

A requirement is decided from left to right against an inventory, and no further than needed. A name is decided by
what it means: a rule of the settings, a literal or a glitch name while glitches are off is constant, a name bound to
a token asks for the token, and any other bound name is opened, that is its requirement is decided in turn.

Answers for names are kept in a memo. A name is marked while it is open, and a marked name answers "no": what a
requirement asks for is never granted on the strength of that requirement itself. Since an open name is marked, names
open inside each other are distinct, and there are no more of them than bound names. So `askName` takes that number as
its budget of openings inside each other, and `Rulebook.checkName` shows none.

When a name that means nothing is reached, evaluation stops; the memo stays as it was then.
-/

namespace Progression

/-! ## Requirements -/

section

variable {m : Type → Type} [Monad m] (held : Inventory) (ask : Name → m Bool)

def Atom.evaluate : Atom → m Bool
  | item id => pure (Token.item id ∈ held : Bool)
  | flag name => pure (Token.flag name ∈ held : Bool)
  | literal value => pure value
  | reference name => ask name

/-- Whether all terms hold; asks no further than the first that does not. -/
def evaluateTerms : List (Option Atom) → m Bool
  | [] => pure true
  | none :: ts => evaluateTerms ts
  | some a :: ts => do if ← a.evaluate held ask then evaluateTerms ts else return false

/-- Whether some clause holds; asks no further than the first that does. -/
def evaluateClauses : List Clause → m Bool
  | [] => pure false
  | c :: cs => do if ← evaluateTerms held ask c.terms then return true else evaluateClauses cs

/-- Whether a requirement holds with what is held, where `ask` decides names. -/
def Requirement.evaluate : Requirement → m Bool
  | free => pure true
  | atom a => a.evaluate held ask
  | expression e => evaluateClauses held ask e.clauses

end

/-! ## Names -/

/-- What requirements are checked against besides the inventory. -/
structure Rulebook where
  definitions : Definitions
  glitchDefinitions : Definitions
  settings : Settings

/-- What a name means. -/
inductive Meaning
  | constant (value : Bool)
  | token (t : Token)
  | bound (r : Requirement)
  | undefined
  deriving DecidableEq

/-- What a name bound to a requirement means. -/
def Meaning.ofRequirement : Requirement → Meaning
  | .atom (.literal b) => constant b
  | .atom (.item id) => token (.item id)
  | .atom (.flag name) => token (.flag name)
  | r => bound r

/-- What a name means: rules come before definitions, and definitions before glitch names that are off. -/
def Rulebook.meaning (book : Rulebook) (n : Name) : Meaning :=
  match book.settings.rule? n with
  | some rule => .constant (book.settings.value rule)
  | none =>
    match book.definitions.get? n with
    | some r => .ofRequirement r
    | none =>
      if !book.settings.glitches && n ∈ book.glitchDefinitions then .constant false else .undefined

/-! ## The memo -/

/-- What is known about a name. -/
inductive Resolution
  /-- The name is open. -/
  | inProgress
  | settled (met : Bool)
  deriving DecidableEq, Repr

/-- The answer that a name in the memo gives; an open name is not met. -/
def Resolution.answer : Resolution → Bool
  | inProgress => false
  | settled met => met

abbrev Memo := Table Name Resolution

/-- A computation with a memo and a log that may stop at a name that means nothing. -/
abbrev Check (α : Type) := ExceptT Name (StateT Memo Logged) α

namespace Check

def tell (e : Event) : Check Unit := ExceptT.lift (StateT.lift (Logged.tell e))

def lookUp (n : Name) : Check (Option Resolution) := return (← get).get? n

def note (n : Name) (r : Resolution) : Check Unit := modify (·.set n r)

end Check

/-- Decides a name, where `openName` decides the requirement of a name that is opened. -/
def askNameWith (book : Rulebook) (held : Inventory) (openName : Requirement → Check Bool) (n : Name) :
    Check Bool := do
  Check.tell (.checking n)
  match book.meaning n with
  | .constant value => return value
  | .undefined => throw n
  | .token t =>
    match ← Check.lookUp n with
    | some r => return r.answer
    | none =>
      Check.note n (.settled (t ∈ held))
      return t ∈ held
  | .bound r =>
    match ← Check.lookUp n with
    | some r => return r.answer
    | none =>
      Check.note n .inProgress
      let met ← openName r
      Check.tell (.settled n met)
      Check.note n (.settled met)
      return met

/-- Decides a name with at most so many names open inside each other. -/
def askName (book : Rulebook) (held : Inventory) : Nat → Name → Check Bool
  | 0 => askNameWith book held fun _ => return false
  | budget + 1 => askNameWith book held fun r => r.evaluate held (askName book held budget)

namespace Rulebook

/-- Decides a name. -/
def checkName (book : Rulebook) (held : Inventory) (n : Name) : Check Bool :=
  askName book held book.definitions.size n

/-- Decides a requirement. -/
def check (book : Rulebook) (held : Inventory) (r : Requirement) : Check Bool :=
  r.evaluate held (book.checkName held)

end Rulebook

end Progression
