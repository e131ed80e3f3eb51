import Progression.Text.Blank

/-!
# Portraits

A portrait leads to an area and is sealed behind a boss. Nest of Evil is a portrait too, but it is never taken out of
the game and so is not in the list.
-/

namespace Progression

structure Portrait where
  name : Name
  /-- The boss that guards the seal. -/
  boss : Name
  /-- The name for having cleared the area. -/
  area : Name
  deriving DecidableEq, Repr

namespace Portrait

/-- The portraits that can be taken out of the game. -/
def all : List Portrait :=
  [⟨"portrait_city_of_haze", "bossdullahan", "cityofhaze"⟩,
    ⟨"portrait_sandy_grave", "bossastarte", "sandygrave"⟩,
    ⟨"portrait_nation_of_fools", "bosslegion", "nationoffools"⟩,
    ⟨"portrait_forest_of_doom", "bossdagon", "forestofdoom"⟩,
    ⟨"portrait_dark_academy", "bosscreature", "darkacademy"⟩,
    ⟨"portrait_burnt_paradise", "bossmedusa", "burntparadise"⟩,
    ⟨"portrait_forgotten_city", "bossmummy", "forgottencity"⟩,
    ⟨"portrait_13th_street", "bosswerewolf", "13thstreet"⟩]

def nestOfEvil : Name := "portrait_nest_of_evil"

/-- The bosses that guard the seal while no portrait is taken out. -/
def sealBosses : List Name := ["bosswerewolf", "bossmummy", "bossmedusa", "bosscreature"]

/-- The portrait with a name. -/
def named? (n : Name) : Option Portrait := all.find? (·.name = n)

/-- The share of the map, in percent, that a portrait adds to what Nest of Evil asks for. -/
def mapPercent : Nat := 111

/-- The greatest share of the map, in percent, that Nest of Evil asks for. -/
def maxMapPercent : Nat := 888

end Portrait

end Progression
