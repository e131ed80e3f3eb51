import Progression.Document.Parser
import Progression.File
import Progression.Location.Key.Parser
import Progression.Location.SubKey
import Progression.Requirement.Document
import Progression.Table.Columns
import Progression.World.Basic

/-!
# Reading a world

The document of a world is an object. `Defs` and `Glitch defs` bind names to requirements and `Preferences` binds
names of pickups to weights; all three may be missing. `Rooms` lists the locations room by room. An entry of a room
is the requirement of the room, under the key `room`, or that of a location; wherever the room entry stands, it holds
for every location of the room. No two entries may denote one location.
-/

namespace Progression

/-- A part of a world document; null when it is missing. -/
def Document.part (d : Document) (p : Part) : Document := d.member p.key

/-- The members of a part of the document. -/
def Part.members (p : Part) (d : Document) : Except Failure (List (String × Document)) :=
  match d.members? with
  | some members => .ok members
  | none => fail (.noObject p)

/-- Reads the definitions of a part; null has none. -/
def Definitions.ofDocument (flags : FlagNames) (p : Part) (d : Document) : Except Failure Definitions := do
  if d.isNull then return ∅
  (← p.members d).foldlM (fun defs (e : String × Document) => do
    let r ← within (.definition e.1) (Requirement.ofDocument flags e.2)
    return defs.set (Name.ofText e.1) r) ∅

/-- The token that a requirement is, for an item or a flag. -/
def Requirement.token? : Requirement → Option Token
  | atom a => a.token?
  | free => none
  | expression _ => none

/-- Reads one preference: the weight of the pickup that a name is defined as. -/
def readPreference (definitions glitchDefinitions : Definitions) (e : String × Document) :
    Except Failure (Token × Single) := do
  let name := Name.ofText e.1
  match e.2 with
  | .number weight =>
    match (definitions.get? name).or (glitchDefinitions.get? name) with
    | none => fail (.undefinedPickup name)
    | some r =>
      match r.token? with
      | none => fail (.noPickup name)
      | some t => return (t, weight.toSingle)
  | _ => fail (.noWeight name)

/-- Reads the preferences; null has none. The last weight of a token counts. -/
def readPreferences (definitions glitchDefinitions : Definitions) (d : Document) :
    Except Failure (Table Token Single) := do
  if d.isNull then return ∅
  return .ofList (← (← Part.preferences.members d).mapM (readPreference definitions glitchDefinitions))

/-- What the entries of a room say. -/
structure RoomRules where
  /-- What the room asks for; the last room entry counts. -/
  requirement : Requirement
  /-- The entities and what they ask for, in the order of the document. -/
  entities : List (SubKey × Requirement)

/-- Takes in one entry of a room. -/
def RoomRules.addEntry (flags : FlagNames) (room : RoomKey) (rules : RoomRules) (e : String × Document) :
    Except Failure RoomRules := do
  let r ← within (.roomEntry room e.1) (Requirement.ofDocument flags e.2)
  if Text.trim e.1.toList = ['r', 'o', 'o', 'm'] then return { rules with requirement := r }
  let k ← within (.room room) (SubKey.ofText e.1)
  return { rules with entities := rules.entities ++ [(k, r)] }

/-- The locations of a room, with what the room asks for. -/
def roomLocations (flags : FlagNames) (e : String × Document) : Except Failure (List (LocationKey × Place)) := do
  let room ← RoomKey.ofText e.1
  match e.2.members? with
  | none => fail (.noRoomObject room)
  | some entries =>
    let rules ← entries.foldlM (RoomRules.addEntry flags room) ⟨.free, []⟩
    return rules.entities.map fun x => (⟨room, x.1.entity⟩, ⟨rules.requirement, x.2, x.1.tags⟩)

/-- The locations of a world while they are read: a register of their keys, and each location at the position of its
key. -/
abbrev Atlas := Columns LocationKey (LocationKey × Place)

namespace Atlas

/-- Takes in a location, whose key must be new. -/
def add (a : Atlas) (e : LocationKey × Place) : Except Failure Atlas :=
  if a.names.contains e.1 then fail (.duplicateLocation e.1) else .ok (a.append e.1 e)

/-- The locations by their keys. -/
def places (a : Atlas) : Table LocationKey Place := .ofList a.values

end Atlas

/-- Takes in the locations of a room. -/
def addRoom (flags : FlagNames) (a : Atlas) (e : String × Document) : Except Failure Atlas := do
  (← roomLocations flags e).foldlM Atlas.add a

def readRooms (flags : FlagNames) (d : Document) : Except Failure Atlas := do
  (← Part.rooms.members d).foldlM (addRoom flags) ∅

namespace World

/-- The world that a document describes, where `flags` are the names of flags. -/
def ofDocument (flags : FlagNames) (d : Document) : Except Failure World := do
  let defs ← within (.part .definitions)
    (Definitions.ofDocument flags .definitions (d.part .definitions))
  let glitchDefs ← within (.part .glitchDefinitions)
    (Definitions.ofDocument flags .glitchDefinitions (d.part .glitchDefinitions))
  let preferences ← within (.part .preferences) (readPreferences defs glitchDefs (d.part .preferences))
  let atlas ← within (.part .rooms) (readRooms flags (d.part .rooms))
  return ⟨flags, defs, glitchDefs, preferences, atlas.places⟩

/-- The world that a text describes. -/
def ofText (flags : FlagNames) (s : String) : Except Failure World := do
  ofDocument flags (← within .worldText (Document.ofText s))

/-- The world that the file at a path describes. -/
def ofFile (flags : FlagNames) (path : String) (view : FileView) : Except Failure World := do
  let s ← view.contents path
  let d ← within (.parsing path) (Document.ofText s)
  within (.loading path) (ofDocument flags d)

end World

end Progression
