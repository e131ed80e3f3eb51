/-!
# Rosters

A roster is a list of distinct keys in the order in which they were first added. A key that is there already keeps
the position it has.
-/

namespace Progression

/-- Distinct keys in the order in which they were first added. -/
structure Roster (κ : Type) where
  toList : List κ
  nodup : toList.Nodup

namespace Roster

variable {κ : Type}

def empty : Roster κ := ⟨[], List.nodup_nil⟩

instance : EmptyCollection (Roster κ) := ⟨empty⟩

instance : Inhabited (Roster κ) := ⟨empty⟩

instance : Membership κ (Roster κ) := ⟨fun r k => k ∈ r.toList⟩

def size (r : Roster κ) : Nat := r.toList.length

def isEmpty (r : Roster κ) : Bool := r.toList.isEmpty

@[simp] theorem mem_toList {k : κ} {r : Roster κ} : k ∈ r.toList ↔ k ∈ r := Iff.rfl

variable [DecidableEq κ]

instance (k : κ) (r : Roster κ) : Decidable (k ∈ r) := inferInstanceAs (Decidable (k ∈ r.toList))

/-- The roster with `k` at the end, unless `k` is in it already. -/
def add (r : Roster κ) (k : κ) : Roster κ :=
  if h : k ∈ r.toList then r
  else ⟨r.toList ++ [k], by
    simpa [List.nodup_append, r.nodup] using fun a ha => ne_of_mem_of_not_mem ha h⟩

/-- The position of `k`. -/
def position? (r : Roster κ) (k : κ) : Option Nat := r.toList.idxOf? k

def ofList (ks : List κ) : Roster κ := ks.foldl add ∅

end Roster

end Progression
