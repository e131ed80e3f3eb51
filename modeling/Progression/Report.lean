import Progression.Json.Printer
import Progression.Session.Overrides
import Progression.Session.Ranking

/-!
# Reports

A report says what a session answered: whether the game can be won, which locations are accessible, how the missing
tokens rank, what Nest of Evil asks for, and which names mean nothing. Tokens rank by the number of locations they
open, the greatest first, and among equals by their own order.
-/

namespace Progression

structure Report where
  beatable : Bool
  accessible : List LocationKey
  ranking : List (Token × Nat)
  nestOfEvilPercent : Option Nat
  undefinedNames : List Name

namespace Report

/-- Whether the first entry may stand before the second. -/
def ranksBefore (a b : Token × Nat) : Bool :=
  b.2 < a.2 || (a.2 = b.2 && !b.1.before a.1)

/-- The entries of a ranking, the tokens that open most first. -/
def order (ranking : Table Token Nat) : List (Token × Nat) :=
  ranking.entries.mergeSort ranksBefore

open Json (Tree)

def toTree (r : Report) : Tree :=
  .record [("beatable", .bool r.beatable),
    ("accessible_locations", .array (r.accessible.map fun k => .text k.display)),
    ("ranking", .array (r.ranking.map fun e => .array [.text e.1.display, .nat e.2])),
    ("nest_of_evil_map_percent", match r.nestOfEvilPercent with
      | some n => .nat n
      | none => .null),
    ("undefined_references", .array (r.undefinedNames.map .text))]

/-- The text of a report. -/
def text (r : Report) : String := r.toTree.pretty

end Report

end Progression
