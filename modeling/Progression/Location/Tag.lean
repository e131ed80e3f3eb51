/-!
# Tags of locations

A tag marks what kind of place a location is or what must not be put there. It has a text, by which world documents
name it, and an identifier, by which records name it.
-/

namespace Progression

inductive Tag
  | enemy
  | event
  | easterEgg
  | villager
  | hidden
  | mirror
  | noSouls
  | noGlyphs
  | noProgression
  | portrait
  deriving DecidableEq, Repr

namespace Tag

def all : List Tag :=
  [enemy, event, easterEgg, villager, hidden, mirror, noSouls, noGlyphs, noProgression, portrait]

def text : Tag → String
  | enemy => "Enemy"
  | event => "Event"
  | easterEgg => "Easter egg"
  | villager => "Villager"
  | hidden => "Hidden"
  | mirror => "Mirror"
  | noSouls => "No souls"
  | noGlyphs => "No glyphs"
  | noProgression => "No progression"
  | portrait => "Portrait"

def identifier : Tag → String
  | enemy => "Enemy"
  | event => "Event"
  | easterEgg => "EasterEgg"
  | villager => "Villager"
  | hidden => "Hidden"
  | mirror => "Mirror"
  | noSouls => "NoSouls"
  | noGlyphs => "NoGlyphs"
  | noProgression => "NoProgression"
  | portrait => "Portrait"

/-- The tag with a text. -/
def ofText? (s : String) : Option Tag := all.find? fun t => t.text = s

theorem ofText?_text (t : Tag) : ofText? t.text = some t := by cases t <;> decide

theorem eq_text_of_ofText? {s : String} {t : Tag} (h : ofText? s = some t) : s = t.text := by
  have ht := List.find?_some h
  exact (of_decide_eq_true ht).symm

end Tag

end Progression
