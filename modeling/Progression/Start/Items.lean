import Progression.Draws
import Progression.Session.Ranking

/-!
# Starting pickups

The pickups of the starting room are drawn from two ranges, items and skills, without the progression tokens. In OoE
the first of them is an attack glyph that needs no statue, and one skill fewer is drawn.
-/

namespace Progression

/-- The numbers from `start` up to, but without, `stop`. -/
structure IdRange where
  start : ItemId
  stop : ItemId
  deriving DecidableEq, Repr

def IdRange.toList (r : IdRange) : List ItemId :=
  (List.range (r.stop.toNat - r.start.toNat)).map fun i => (r.start.toNat + i).toUInt32

structure ItemSettings where
  /-- Consumables and equipment. -/
  items : IdRange
  /-- Souls, subweapons, spells or glyphs, depending on the game. -/
  skills : IdRange
  deriving DecidableEq, Repr

/-- Attack glyphs that need no statue, so that the player can break the first one. -/
def freeGlyphs : List ItemId :=
  [0x1D, 0x1F, 0x20, 0x22, 0x24, 0x26, 0x27, 0x2A, 0x2B, 0x2F, 0x30, 0x31, 0x32]

/-- The pickups of a range that are no progression tokens. -/
def plainPickups (tokens : List Token) (r : IdRange) : List ItemId :=
  r.toList.filter fun id => Token.item id ∉ tokens

/-- How many items are drawn, and how many skills where no glyph is. -/
def startingCount : Nat := 3

/-- Draws the starting pickups next to which `tokens` are placed elsewhere. -/
def drawItems (game : Game) (tokens : List Token) (settings : ItemSettings) : Drawing (List ItemId) := do
  let items := plainPickups tokens settings.items
  let skills := plainPickups tokens settings.skills
  let glyph ← if game = .ooe then Draws.choose freeGlyphs else pure none
  let drawnItems ← Draws.sample startingCount items
  match glyph with
  | some g => return g :: drawnItems ++ (← Draws.sample (startingCount - 1) (skills.filter (· ≠ g)))
  | none => return drawnItems ++ (← Draws.sample startingCount skills)

/-- Chooses the starting pickups of a session; answers them and the words left. -/
def Session.startingItems (s : Session) (settings : ItemSettings) (d : Draws) :
    Query (List ItemId × Draws) := do
  let tokens ← s.progressionTokens
  let r := (drawItems s.settings.game tokens settings).run d
  for id in r.1 do Query.tell (.startingPickup id)
  return r

end Progression
