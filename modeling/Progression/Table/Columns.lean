import Progression.Table
import Std.Data.HashMap

/-!
# Tables in columns

A table can be kept in columns: the keys in the order of their first binding, an index of the positions of the keys,
and the values, each at the position of its key. What is looked up or replaced is found by position. There is no answer
where a position lies outside of the columns.
-/

namespace Progression

/-- Keys in order, with an index of their positions. -/
structure Register (κ : Type) [DecidableEq κ] [Hashable κ] where
  keys : List κ
  positions : Std.HashMap κ Nat

/-- A register of keys, and values at their positions. -/
structure Columns (κ β : Type) [DecidableEq κ] [Hashable κ] where
  names : Register κ
  values : List β

variable {κ β : Type} [DecidableEq κ] [Hashable κ]

namespace Register

instance : EmptyCollection (Register κ) := ⟨⟨[], ∅⟩⟩

def contains (r : Register κ) (k : κ) : Bool := r.positions.contains k

/-- The position of `k`, which comes to the end if it is new. -/
def add (r : Register κ) (k : κ) : Nat × Register κ :=
  match r.positions[k]? with
  | some i => (i, r)
  | none => (r.keys.length, ⟨r.keys ++ [k], r.positions.insert k r.keys.length⟩)

end Register

namespace Columns

instance : EmptyCollection (Columns κ β) := ⟨⟨∅, []⟩⟩

/-- The value at the position of `k`, if `k` has one. -/
def get? (t : Columns κ β) (k : κ) : Option (Option β) :=
  match t.names.positions[k]? with
  | none => some none
  | some i => t.values[i]?.map some

/-- Registers `k` and puts `v` behind the values, which is the position of `k` if it is new. -/
def append (t : Columns κ β) (k : κ) (v : β) : Columns κ β := ⟨(t.names.add k).2, t.values ++ [v]⟩

/-- Binds `k` to `v`. A position just behind the values is that of a new key, and one before it that of a value to
replace. -/
def set? (t : Columns κ β) (k : κ) (v : β) : Option (Columns κ β) :=
  let (i, names) := t.names.add k
  if i = t.values.length then some ⟨names, t.values ++ [v]⟩
  else if i < t.values.length then some ⟨names, t.values.set i v⟩
  else none

/-- The keys with their values, in order. -/
def entries (t : Columns κ β) : List (κ × β) := t.names.keys.zip t.values

/-- Takes over every binding of `u`, in its order. -/
def merge? (t u : Columns κ β) : Option (Columns κ β) :=
  u.entries.foldlM (fun t e => t.set? e.1 e.2) t

end Columns

end Progression
