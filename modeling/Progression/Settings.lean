import Progression.Text.Blank

/-!
# Settings

The settings of a session say which game is played, whether glitches may be asked for, and whether the world map is
open. A rule is a name that the settings decide instead of the definitions; which rules there are depends on the
game.
-/

namespace Progression

inductive Game
  | dos
  | por
  | ooe
  deriving DecidableEq, Repr

namespace Game

def all : List Game := [dos, por, ooe]

def name : Game → String
  | dos => "Dos"
  | por => "Por"
  | ooe => "Ooe"

/-- The game with a name, whatever the case of its ASCII letters. -/
def ofText? (s : String) : Option Game :=
  all.find? fun g => s.toList.map Char.toLower = g.name.toList.map Char.toLower

end Game

/-- A name that the settings decide. -/
inductive Rule
  | openWorldMap
  deriving DecidableEq, Repr

namespace Rule

def all : List Rule := [openWorldMap]

/-- The name by which requirements refer to a rule. -/
def text : Rule → Name
  | openWorldMap => "nonlinear"

/-- What a rule is called where settings are described. -/
def identifier : Rule → String
  | openWorldMap => "OpenWorldMap"

/-- The games that know a rule. -/
def appliesTo : Rule → Game → Bool
  | openWorldMap, g => g = .ooe

end Rule

structure Settings where
  game : Game
  /-- Whether the glitch definitions are part of the definitions. -/
  glitches : Bool
  openWorld : Bool
  deriving DecidableEq, Repr

namespace Settings

def default : Settings := ⟨.dos, false, false⟩

instance : Inhabited Settings := ⟨default⟩

/-- The rule that a name stands for in the game that is played. -/
def rule? (s : Settings) (n : Name) : Option Rule :=
  Rule.all.find? fun r => r.text = n && r.appliesTo s.game

/-- What the settings decide for a rule. -/
def value (s : Settings) : Rule → Bool
  | .openWorldMap => s.openWorld

theorem rule?_eq_some_iff {s : Settings} {n : Name} {r : Rule} :
    s.rule? n = some r ↔ n = r.text ∧ r.appliesTo s.game := by
  cases r
  by_cases h : n = "nonlinear" <;> by_cases hg : s.game = .ooe <;>
    simp [rule?, Rule.all, Rule.text, Rule.appliesTo, List.find?, h, hg, Ne.symm]

end Settings

end Progression
