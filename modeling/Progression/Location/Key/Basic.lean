import Progression.Text.Hexadecimal

/-!
# Keys of rooms and locations

A room is known by its area, its sector and its number there; a location by its room and the index of an entity in
it. Keys are ordered part by part, which is the order of their ranks.
-/

namespace Progression

structure RoomKey where
  area : UInt8
  sector : UInt8
  room : UInt8
  deriving DecidableEq, Hashable, Repr

structure LocationKey where
  room : RoomKey
  entity : UInt16
  deriving DecidableEq, Hashable, Repr

/-- A number with at least two digits of base sixteen. -/
def hexPair (n : Nat) : String := String.ofList (Hexadecimal.digits 2 n)

namespace RoomKey

def display (k : RoomKey) : String :=
  hexPair k.area.toNat ++ "-" ++ hexPair k.sector.toNat ++ "-" ++ hexPair k.room.toNat

/-- The place of a room among all rooms that could be. -/
def rank (k : RoomKey) : Nat :=
  (k.area.toNat * UInt8.size + k.sector.toNat) * UInt8.size + k.room.toNat

end RoomKey

namespace LocationKey

def display (k : LocationKey) : String :=
  k.room.display ++ "_" ++ hexPair k.entity.toNat

/-- The place of a location among all locations that could be. -/
def rank (k : LocationKey) : Nat :=
  k.room.rank * UInt16.size + k.entity.toNat

/-- Keys in increasing order, repetitions kept. -/
def sort (ks : List LocationKey) : List LocationKey :=
  ks.mergeSort fun a b => a.rank ≤ b.rank

end LocationKey

end Progression
