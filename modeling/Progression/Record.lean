import Progression.File
import Progression.Json.Decode
import Progression.Json.Printer
import Progression.Start.Items
import Progression.Start.Room

/-!
# Records

How settings, keys, tokens, inventories and descriptions of rooms are given and shown in JSON.
-/

namespace Progression

open Json (Tree Decoder Fields)

namespace Game

def decode : Decoder Game := Decoder.variant all name

def toTree (g : Game) : Tree := .text g.name

end Game

namespace Tag

def decode : Decoder Tag := Decoder.variant all identifier

def toTree (t : Tag) : Tree := .text t.identifier

end Tag

namespace Settings

def decode : Decoder Settings := fun t => do
  let f ← Fields.ofTree? ["game", "enable_glitch_requirements", "open_world_map"] false t
  let game ← f.withDefault "game" Game.decode .dos
  let glitches ← f.withDefault "enable_glitch_requirements" Decoder.bool false
  let openWorld ← f.withDefault "open_world_map" Decoder.bool false
  return ⟨game, glitches, openWorld⟩

def toTree (s : Settings) : Tree :=
  .record [("game", s.game.toTree), ("enable_glitch_requirements", .bool s.glitches),
    ("open_world_map", .bool s.openWorld)]

/-- The settings that a text describes. -/
def ofText (s : String) : Except Failure Settings :=
  match Json.parse? s >>= decode with
  | some settings => .ok settings
  | none => fail .malformedRecord

/-- The settings that the file at a path describes. -/
def ofFile (path : String) (view : FileView) : Except Failure Settings := do
  within (.parsing path) (ofText (← view.contentsAtOnce path))

end Settings

namespace Token

def decode : Decoder Token
  | .object [(key, t)] =>
    match Json.text? key with
    | some "Item" => (Decoder.word t).map item
    | some "Flag" => (Decoder.text t).map flag
    | _ => none
  | _ => none

def toTree : Token → Tree
  | item id => .record [("Item", .nat id.toNat)]
  | flag name => .record [("Flag", .text name)]

end Token

namespace Inventory

def decode : Decoder Inventory := fun t => do
  let f ← Fields.ofTree? ["tokens"] false t
  let tokens ← f.required "tokens" (Decoder.list Token.decode)
  return .ofList tokens

/-- The members in increasing order. -/
def toTree (inv : Inventory) : Tree := .array (inv.toList.map Token.toTree)

end Inventory

namespace RoomKey

def decode : Decoder RoomKey := fun t => do
  let f ← Fields.ofTree? ["area_index", "sector_index", "room_index"] false t
  let area ← f.required "area_index" Decoder.byte
  let sector ← f.required "sector_index" Decoder.byte
  let room ← f.required "room_index" Decoder.byte
  return ⟨area, sector, room⟩

def toTree (k : RoomKey) : Tree :=
  .record [("area_index", .nat k.area.toNat), ("sector_index", .nat k.sector.toNat),
    ("room_index", .nat k.room.toNat)]

end RoomKey

namespace LocationKey

def decode : Decoder LocationKey := fun t => do
  let f ← Fields.ofTree? ["room", "entity_index"] false t
  let room ← f.required "room" RoomKey.decode
  let entity ← f.required "entity_index" Decoder.half
  return ⟨room, entity⟩

def toTree (k : LocationKey) : Tree :=
  .record [("room", k.room.toTree), ("entity_index", .nat k.entity.toNat)]

end LocationKey

/-- A number in single precision; null for what has no decimal expansion. -/
def Single.toTree (x : Single) : Tree :=
  match x.toNumber? with
  | some n => .number n
  | none => .null

namespace IdRange

def decode : Decoder IdRange := fun t => do
  let f ← Fields.ofTree? ["start", "end"] true t
  let start ← f.required "start" Decoder.word
  let stop ← f.required "end" Decoder.word
  return ⟨start, stop⟩

def toTree (r : IdRange) : Tree :=
  .record [("start", .nat r.start.toNat), ("end", .nat r.stop.toNat)]

end IdRange

namespace ItemSettings

def decode : Decoder ItemSettings := fun t => do
  let f ← Fields.ofTree? ["item_ids", "skill_ids"] false t
  let items ← f.required "item_ids" IdRange.decode
  let skills ← f.required "skill_ids" IdRange.decode
  return ⟨items, skills⟩

def toTree (s : ItemSettings) : Tree :=
  .record [("item_ids", s.items.toTree), ("skill_ids", s.skills.toTree)]

end ItemSettings

namespace RoomSettings

def decode : Decoder RoomSettings := fun t => do
  let f ← Fields.ofTree? ["max_difficulty", "removed_portrait_areas"] false t
  let maxDifficulty ← f.required "max_difficulty" Decoder.single
  let removedAreas ← f.withDefault "removed_portrait_areas" (Decoder.list Decoder.byte) []
  return ⟨maxDifficulty, removedAreas⟩

def toTree (s : RoomSettings) : Tree :=
  .record [("max_difficulty", s.maxDifficulty.toTree),
    ("removed_portrait_areas", .array (s.removedAreas.map fun a => .nat a.toNat))]

end RoomSettings

namespace RoomCandidate

def decode : Decoder RoomCandidate := fun t => do
  let f ← Fields.ofTree? ["room", "area_name", "sector_name", "map_y", "num_layers", "num_usable_doors",
    "has_save_point", "has_warp_point", "has_boss", "unused", "subsector_difficulty"] false t
  let room ← f.required "room" RoomKey.decode
  let areaName ← f.required "area_name" Decoder.text
  let sectorName ← f.required "sector_name" Decoder.text
  let mapY ← f.required "map_y" Decoder.byte
  let layers ← f.required "num_layers" Decoder.count
  let usableDoors ← f.required "num_usable_doors" Decoder.count
  let hasSavePoint ← f.required "has_save_point" Decoder.bool
  let hasWarpPoint ← f.required "has_warp_point" Decoder.bool
  let hasBoss ← f.required "has_boss" Decoder.bool
  let unused ← f.withDefault "unused" Decoder.bool false
  let difficulty ← f.optional "subsector_difficulty" Decoder.single
  return ⟨room, areaName, sectorName, mapY, layers, usableDoors, hasSavePoint, hasWarpPoint, hasBoss, unused,
    difficulty⟩

def toTree (c : RoomCandidate) : Tree :=
  .record [("room", c.room.toTree), ("area_name", .text c.areaName), ("sector_name", .text c.sectorName),
    ("map_y", .nat c.mapY.toNat), ("num_layers", .nat c.layers), ("num_usable_doors", .nat c.usableDoors),
    ("has_save_point", .bool c.hasSavePoint), ("has_warp_point", .bool c.hasWarpPoint),
    ("has_boss", .bool c.hasBoss), ("unused", .bool c.unused),
    ("subsector_difficulty", match c.difficulty with
      | some d => d.toTree
      | none => .null)]

end RoomCandidate

end Progression
