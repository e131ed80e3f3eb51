import Progression.Json.Tree
import Progression.Numeric.Binary

/-!
# Single precision numbers

A number of single precision is a word of 32 bits: a sign and the rank of a magnitude, where ranks beyond infinity
are no number. Comparisons with what is no number fail. Other numbers compare as their keys do, integers in which the
two zeros are one (`Single.le_iff`).
-/

namespace Progression

structure Single where
  bits : UInt32
  deriving DecidableEq, Repr

namespace Single

open Binary

def infinity : Single := ⟨0x7F800000⟩

def nan : Single := ⟨0x7FC00000⟩

def negative (x : Single) : Bool := 0x80000000 ≤ x.bits

/-- The rank of the magnitude. -/
def rank (x : Single) : Nat := (x.bits &&& 0x7FFFFFFF).toNat

def isNaN (x : Single) : Bool := Format.single.infinity < x.rank

/-- The number with a sign and the rank of a magnitude. -/
def ofRank (negative : Bool) (rank : Nat) : Single :=
  ⟨(if negative then 0x80000000 else 0) + rank.toUInt32⟩

/-- An integer whose order is the order of the numbers. -/
def key (x : Single) : Int := if x.negative then -x.rank else x.rank

def le (x y : Single) : Bool := !x.isNaN && !y.isNaN && x.key ≤ y.key

def equals (x y : Single) : Bool := !x.isNaN && !y.isNaN && x.key = y.key

/-- The lesser of two numbers, or the other one if one is no number. -/
def least (x y : Single) : Single :=
  if x.isNaN then y else if y.isNaN then x else if y.key < x.key then y else x

theorem le_iff {x y : Single} (hx : x.isNaN = false) (hy : y.isNaN = false) :
    x.le y ↔ x.key ≤ y.key := by
  simp [le, hx, hy]

theorem equals_iff {x y : Single} (hx : x.isNaN = false) (hy : y.isNaN = false) :
    x.equals y ↔ x.key = y.key := by
  simp [equals, hx, hy]

/-- The decimal digits of a natural number. -/
def decimalDigits (n : Nat) : List Nat := (Nat.toDigits 10 n).map fun c => c.toNat - '0'.toNat

/-- The decimal expansion, which is finite; it has one place at least. Infinities and what is no number have
none. -/
def toNumber? (x : Single) : Option Json.Number :=
  if Format.single.infinity ≤ x.rank then none
  else
    let m := Format.single.significand x.rank
    let e := Format.single.exponent x.rank
    let places := max 1 (-e).toNat
    let scaled := m * Nat.pow 2 e.toNat * Nat.pow 10 places / Nat.pow 2 (-e).toNat
    some ⟨x.negative, decimalDigits (scaled / Nat.pow 10 places),
      (decimalDigits (scaled % Nat.pow 10 places)).leftpad places 0, none⟩

end Single

end Progression
