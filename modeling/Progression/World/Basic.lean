import Progression.FlagNames
import Progression.Location.Tag
import Progression.Log
import Progression.Numeric.Single
import Progression.Table

/-!
# Worlds

A world is what the rules of a game say before anything is played: the definitions of names, further definitions for
glitches, preferences among pickups, and the locations with their requirements.
-/

namespace Progression

/-- The requirements that names are bound to. -/
abbrev Definitions := Table Name Requirement

/-- What is known about a location. -/
structure Place where
  /-- What its room asks for. -/
  room : Requirement
  /-- What the location itself asks for. -/
  entity : Requirement
  tags : List Tag
  deriving DecidableEq

structure World where
  flags : FlagNames
  definitions : Definitions
  glitchDefinitions : Definitions
  /-- How much it is preferred to place a token. -/
  preferences : Table Token Single
  places : Table LocationKey Place

namespace World

/-- The locations with a tag, in the order of the world. -/
def tagged (w : World) (t : Tag) : List LocationKey :=
  (w.places.entries.filter fun p => t ∈ p.2.tags).map Prod.fst

/-- The event that a world was read. -/
def loaded (w : World) : Event :=
  .loaded w.definitions.size w.glitchDefinitions.size w.places.size

end World

end Progression
