import Progression.Failure
import Progression.Text.Blank

/-!
# Reading keys

A room key is three numbers of two bytes of text, joined by hyphens; a location key is a room key and an entity
index, joined by an underscore. Blanks around a key do not matter. Messages quote the text as it was given, but a
fault of the room part quotes that part.
-/

namespace Progression

namespace RoomKey

/-- One of the three numbers; `whole` is the text of the key. -/
def readPart (whole : String) (part : List Char) : Except Failure UInt8 :=
  if (String.ofList part).utf8ByteSize ≠ 2 then fail (.roomKeyShape whole)
  else
    match Hexadecimal.read UInt8.size part with
    | .ok n => .ok n.toUInt8
    | .error e => within (.roomNumerals whole) (fail (.numeral e))

def ofText (s : String) : Except Failure RoomKey :=
  match (Text.trim s.toList).splitOn '-' with
  | [a, b, c] => do return ⟨← readPart s a, ← readPart s b, ← readPart s c⟩
  | _ => fail (.roomKeyShape s)

end RoomKey

namespace LocationKey

def ofText (s : String) : Except Failure LocationKey :=
  match Text.cutAt '_' (Text.trim s.toList) with
  | none => fail (.locationKeyShape s)
  | some (room, entity) => do
    let room ← RoomKey.ofText (String.ofList room)
    match Hexadecimal.read UInt16.size entity with
    | .ok n => return ⟨room, n.toUInt16⟩
    | .error e => within (.locationNumeral s) (fail (.numeral e))

end LocationKey

end Progression
