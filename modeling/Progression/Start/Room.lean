import Progression.Draws
import Progression.Numeric.Single
import Progression.Session.Basic

/-!
# The starting room

A room can be started in if it can be left and used as a base, and if no boss or rule of the game stands against it.
Of those rooms, the ones from which enough locations are accessible are preferred, then those that are not too hard,
then the easiest; rooms without a difficulty are never chosen. One of what remains is drawn.
-/

namespace Progression

/-- A room that could be started in, as the caller describes it. -/
structure RoomCandidate where
  room : RoomKey
  areaName : String
  sectorName : String
  mapY : UInt8
  layers : Nat
  /-- Left or right doors that can be reached and are not underwater. -/
  usableDoors : Nat
  hasSavePoint : Bool
  hasWarpPoint : Bool
  hasBoss : Bool
  unused : Bool
  difficulty : Option Single
  deriving DecidableEq, Repr

structure RoomSettings where
  maxDifficulty : Single
  removedAreas : List UInt8
  deriving DecidableEq, Repr

namespace RoomCandidate

/-- Whether `part` stands somewhere in a text. -/
def occursIn (part : List Char) : List Char → Bool
  | [] => part.isEmpty
  | c :: s => part.isPrefixOf (c :: s) || occursIn part s

/-- From this map row on, the sector of the mine is too deep to start in. -/
def mineDepth : UInt8 := 0x17

/-- The sector of Master's Keep in which Dracula and Death are met. -/
def finalKeepSector : UInt8 := 0xC

/-- Whether the room has what the game saves or travels at. -/
def hasTeleport (c : RoomCandidate) : Game → Bool
  | .dos => c.hasSavePoint
  | .por => c.hasWarpPoint
  | .ooe => c.hasWarpPoint

/-- Whether the room lies where no game starts. -/
def isForbidden (c : RoomCandidate) : Bool :=
  occursIn "Boss Rush".toList c.areaName.toList || occursIn "Boss Rush".toList c.sectorName.toList ||
    c.sectorName = "The Abyss" ||
    (c.sectorName = "Condemned Tower & Mine of Judgment" && mineDepth ≤ c.mapY) ||
    c.areaName = "Nest of Evil" || c.sectorName = "The Throne Room" ||
    (c.sectorName = "Master's Keep" && c.room.sector = finalKeepSector) ||
    c.areaName = "Training Hall" || c.areaName = "Large Cavern" || c.sectorName = "Final Approach"

/-- Whether the room lies where this game does not start. -/
def isForbiddenIn (c : RoomCandidate) (removedAreas : List UInt8) : Game → Bool
  | .dos => false
  | .por => c.room.area ∈ removedAreas
  | .ooe => c.room.area = 0

/-- Whether the room can be started in. -/
def isValid (c : RoomCandidate) (game : Game) (removedAreas : List UInt8) : Bool :=
  c.layers ≠ 0 && c.usableDoors ≠ 0 && c.hasTeleport game && !c.isForbidden &&
    !c.isForbiddenIn removedAreas game && !c.hasBoss && !c.unused

end RoomCandidate

/-- A candidate and its position among the candidates. -/
abbrev Placed := RoomCandidate × Nat

/-- From more than this many accessible locations a room counts as opening up enough. -/
def fewLocations : Nat := 3

/-- The valid candidates. -/
def validRooms (candidates : List RoomCandidate) (game : Game) (settings : RoomSettings) : List Placed :=
  candidates.zipIdx.filter fun c => c.1.isValid game settings.removedAreas

/-- The positions that are probed: those of the rooms up to the first whose probe fails. -/
def probedPositions (probe : Nat → Except Failure Nat) : List Placed → List Nat
  | [] => []
  | c :: cs =>
    c.2 :: match probe c.2 with
      | .ok _ => probedPositions probe cs
      | .error _ => []

/-- The rooms with the count that their probe reports. -/
def probeRooms (probe : Nat → Except Failure Nat) (rooms : List Placed) :
    Except Failure (List (Placed × Nat)) :=
  rooms.mapM fun c => do return (c, ← within (.probing c.1.room) (probe c.2))

/-- The rooms that open up enough, or all if none does. -/
def preferOpen (rooms : List (Placed × Nat)) : List Placed :=
  let enough := rooms.filter fun c => fewLocations < c.2
  (if enough.isEmpty then rooms else enough).map Prod.fst

/-- The rated rooms that are not too hard, or the easiest ones if all are. -/
def preferEasy (maxDifficulty : Single) (rooms : List Placed) : List Placed :=
  let rated := rooms.filterMap fun c => c.1.difficulty.map fun d => (c, d)
  let easy := rated.filter fun c => c.2.le maxDifficulty
  let least := (rated.map Prod.snd).foldl Single.least .infinity
  (if easy.isEmpty then rated.filter fun c => c.2.equals least else easy).map Prod.fst

/-- Chooses a starting room, where `probe` reports for a position how many locations are accessible from its room;
answers the position and the words left. -/
def startingRoom (candidates : List RoomCandidate) (game : Game) (settings : RoomSettings)
    (probe : Nat → Except Failure Nat) (d : Draws) : Query (Nat × Draws) := do
  let probed ← Query.ofExcept (probeRooms probe (validRooms candidates game settings))
  let (drawn, d) := (Draws.choose (preferEasy settings.maxDifficulty (preferOpen probed))).run d
  match drawn with
  | none => throw (.ofCause .noStartingRoom)
  | some c =>
    Query.tell (.startingRoom c.1.room)
    return (c.2, d)

end Progression
