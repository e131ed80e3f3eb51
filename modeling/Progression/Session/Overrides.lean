import Progression.Portrait
import Progression.Session.Basic

/-!
# Overrides for kinds of play

Ready-made changes of the definitions: which souls open the red walls, which requirements a patched game drops, and
which portraits are out of the game.
-/

namespace Progression.Session

/-- Names the four souls that open the red walls. -/
def setRedWallSouls (first second third fourth : ItemId) : Command Unit := do
  override "red_wall_soul_0" (.atom (.item first))
  override "red_wall_soul_1" (.atom (.item second))
  override "red_wall_soul_2" (.atom (.item third))
  override "red_wall_soul_3" (.atom (.item fourth))

/-- Two areas no longer ask for their bosses, only for their portraits. -/
def removePortraitPrerequisites : Command Unit := do
  override "13thstreet" (.atom (.flag "portrait_13th_street"))
  override "burntparadise" (.atom (.flag "portrait_burnt_paradise"))

/-- Aguni can be met without Paranoia. -/
def removeParanoiaPrerequisite : Command Unit :=
  override "can_kill_aguni" (.atom (.literal true))

/-- The portraits of a list that can be taken out; Nest of Evil is passed over. -/
def removablePortraits (names : List Name) : Except Failure (List Name) :=
  (names.filter (· ≠ Portrait.nestOfEvil)).mapM fun n =>
    match Portrait.named? n with
    | some _ => .ok n
    | none => fail (.unknownPortrait n)

/-- The share of the map, in percent, that Nest of Evil asks for with these portraits. -/
def nestOfEvilPercent (portraits : List Portrait) : Nat :=
  min Portrait.maxMapPercent (Portrait.mapPercent * portraits.length)

/-- Takes portraits out of the game, in place of those taken out before. The seal and the quest of Nest of Evil then
ask only for what remains. Answers the share of the map that the quest asks for, if it changes. -/
def removePortraits (names : List Name) : Command (Option Nat) := do
  let s ← get
  if s.settings.game ≠ .por then Command.failWith .noPortraitsInGame
  if s.chosen.isSome then Command.failWith .portraitsTooLate
  let removed ← Command.ask fun _ => Query.ofExcept (removablePortraits names)
  modify fun s => { s with removedPortraits := removed }
  if names.isEmpty then
    override "four_seal_bosses_killed" (.allOf Portrait.sealBosses)
    return none
  let left := Portrait.all.filter fun p => p.name ∉ removed
  override "four_seal_bosses_killed" (.allOf (left.map Portrait.boss))
  override "can_complete_nest_of_evil_quest" (.allOf (left.map Portrait.area))
  let percent := nestOfEvilPercent left
  Command.tell (.nestOfEvil percent)
  return some percent

end Progression.Session
