import Progression.Roster
import Progression.Text.Blank

/-!
# Flag names

Two closed sets of names, villagers and portraits, stand for flags of the inventory and are never looked up among the
definitions.
-/

namespace Progression

structure FlagNames where
  villagers : Roster Name
  portraits : Roster Name

namespace FlagNames

instance : EmptyCollection FlagNames := ⟨⟨∅, ∅⟩⟩

instance : Inhabited FlagNames := ⟨∅⟩

/-- The sets of the names that the texts stand for. -/
def ofTexts (villagers portraits : List String) : FlagNames :=
  ⟨Roster.ofList (villagers.map Name.ofText), Roster.ofList (portraits.map Name.ofText)⟩

instance : Membership Name FlagNames := ⟨fun flags n => n ∈ flags.villagers ∨ n ∈ flags.portraits⟩

instance (n : Name) (flags : FlagNames) : Decidable (n ∈ flags) :=
  inferInstanceAs (Decidable (n ∈ flags.villagers ∨ n ∈ flags.portraits))

end FlagNames

end Progression
