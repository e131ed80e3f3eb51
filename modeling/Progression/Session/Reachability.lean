import Progression.Session.Basic

/-!
# What can be reached

Questions about a session: whether requirements and names hold, whether the game can be won, which locations are
accessible, and which names are referred to but mean nothing. A location is accessible if what its room asks for and
what it asks for itself both hold; each of the two is decided anew.
-/

namespace Progression

/-- The name that says that the game is won. -/
def winName : Name := "beat_game"

namespace Session

variable (s : Session)

def checkRequirement (r : Requirement) : Query Bool :=
  Query.ofCheck (s.rulebook.check s.inventory r)

def checkName (n : Name) : Query Bool :=
  Query.within (.checkingName n) (Query.ofCheck (s.rulebook.checkName s.inventory n))

/-- Decides names one after the other with one memo. -/
def checkNames (ns : List Name) : Query (List Bool) :=
  Query.ofCheck (ns.mapM (s.rulebook.checkName s.inventory))

def isBeatable : Query Bool := s.checkName winName

/-- Whether what a location and its room ask for holds. -/
def checkPlace (p : Place) : Query Bool := do
  if ← s.checkRequirement p.room then s.checkRequirement p.entity else return false

/-- Whether a location of the world is accessible. -/
def checkEntry (e : LocationKey × Place) : Query Bool :=
  Query.within (.checkingLocation e.1) (s.checkPlace e.2)

def isAccessible (key : LocationKey) : Query Bool :=
  match s.world.places.get? key with
  | none => throw (.ofCause (.unknownLocation key))
  | some p => s.checkEntry (key, p)

/-- The accessible locations, in the order of the world. -/
def accessible : Query (List LocationKey) := do
  return (← s.world.places.entries.filterM s.checkEntry).map Prod.fst

/-- The accessible ones among some locations, each once, in the order in which they first come. -/
def accessibleAmong (keys : List LocationKey) : Query (List LocationKey) :=
  keys.eraseDups.filterM s.isAccessible

/-! ## Names that mean nothing -/

/-- Whether a name is a rule, is bound, or is a glitch name while glitches are off. -/
def isDefined (n : Name) : Bool :=
  (s.settings.rule? n).isSome || n ∈ s.definitions ||
    (!s.settings.glitches && n ∈ s.world.glitchDefinitions)

/-- The requirements of a session: those of the names, then those of the locations. -/
def requirements : List Requirement :=
  s.definitions.values ++ s.world.places.values.flatMap fun p => [p.room, p.entity]

/-- The names that are referred to and mean nothing, each once, in the order in which they first come. -/
def undefinedNames : List Name :=
  (s.requirements.flatMap Requirement.references).eraseDups.filter fun n => !s.isDefined n

end Session

end Progression
