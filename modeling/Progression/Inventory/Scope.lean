import Progression.Inventory

/-!
# Scopes

A scope changes an inventory for a while. It remembers the contents it began with, can put them back and go on
(`Scope.current_reset`), and gives them back when it is left, whatever it holds then.
-/

namespace Progression

/-- Temporary changes to an inventory. -/
structure Scope where
  /-- The contents when the scope began. -/
  saved : Inventory
  /-- The contents now. -/
  current : Inventory

namespace Scope

/-- A scope on `inv`, with nothing changed yet. -/
def enter (inv : Inventory) : Scope := ⟨inv, inv⟩

/-- A change of the contents. -/
def update (s : Scope) (f : Inventory → Inventory) : Scope := { s with current := f s.current }

/-- Puts the saved contents back and keeps the scope open. -/
def reset (s : Scope) : Scope := { s with current := s.saved }

/-- The contents after the scope. -/
def leave (s : Scope) : Inventory := s.saved

@[simp] theorem saved_enter (inv : Inventory) : (enter inv).saved = inv := rfl

@[simp] theorem current_update (s : Scope) (f : Inventory → Inventory) : (s.update f).current = f s.current := rfl

@[simp] theorem current_reset (s : Scope) : s.reset.current = s.saved := rfl

end Scope

end Progression
