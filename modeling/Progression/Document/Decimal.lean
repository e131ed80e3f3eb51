import Progression.Json.Tree
import Progression.Numeric.Single

/-!
# Numbers of a document

A document keeps a number as a sign, a mantissa of at most 64 bits and a decimal exponent. Digits that no longer fit
the mantissa are dropped: before the point they raise the exponent, after it they change nothing. From there the
number is written again or taken to a binary format, each step of which is rounded.
-/

namespace Progression

structure Decimal where
  negative : Bool
  mantissa : Nat
  exponent : Int
  deriving DecidableEq, Repr

namespace Decimal

/-- A mantissa stays below this bound. -/
def mantissaBound : Nat := UInt64.size

/-- The greatest exponent; the least one is the number before its opposite. -/
def maxExponent : Nat := 32767

/-- Takes in a digit before the point, or counts it if it no longer fits. -/
def pushWhole (p : Nat × Nat) (digit : Nat) : Nat × Nat :=
  if p.1 * 10 + digit < mantissaBound then (p.1 * 10 + digit, p.2) else (p.1, p.2 + 1)

/-- Takes in a digit after the point. -/
def pushFraction (p : Nat × Int) (digit : Nat) : Nat × Int :=
  if p.1 * 10 + digit < mantissaBound then (p.1 * 10 + digit, p.2 - 1) else p

/-- Whether so many digits may stand before the point. -/
def allowsWhole (digits : List Nat) : Bool :=
  (digits.foldl pushWhole (0, 0)).2 ≤ maxExponent

/-- The value of an explicit exponent, held at the greatest one. -/
def explicitExponent : Option (Bool × List Nat) → Int
  | none => 0
  | some (negative, digits) =>
    let x := digits.foldl (fun n digit => min maxExponent (n * 10 + digit)) 0
    if negative then -(x : Int) else x

/-- An exponent, held between the least and the greatest one. -/
def holdExponent : Int → Int
  | .ofNat n => .ofNat (min n maxExponent)
  | .negSucc n => .negSucc (min n maxExponent)

def ofNumber (n : Json.Number) : Decimal :=
  let (whole, dropped) := n.whole.foldl pushWhole (0, 0)
  let p := n.fraction.foldl pushFraction (whole, (dropped : Int))
  ⟨n.negative, p.1, holdExponent (p.2 + explicitExponent n.exponent)⟩

/-! ## Writing -/

/-- The first digit, and the others after a point if there are others. -/
def leadingForm : List Char → List Char
  | [] => []
  | [c] => [c]
  | c :: cs => c :: '.' :: cs

/-- The digits of a mantissa, at least `places + 1` of them, with a point before the last `places`. -/
def pointForm (digits : List Char) (places : Nat) : List Char :=
  let ds := digits.leftpad (places + 1) '0'
  ds.take (ds.length - places) ++ '.' :: ds.drop (ds.length - places)

def unsignedDisplay (m : Nat) (e : Int) : List Char :=
  let ds := Nat.toDigits 10 m
  let x : Int := (ds.length : Int) - 1 + e
  if m = 0 then ['0']
  else if e = 0 then ds
  else if e < 0 then
    if -18 < e then pointForm ds e.natAbs
    else if x = 0 then leadingForm ds
    else leadingForm ds ++ 'e' :: (if x < 0 then [] else ['+']) ++ (toString x).toList
  else if ds.length + e ≤ 20 then ds ++ List.replicate e.toNat '0'
  else leadingForm ds ++ 'e' :: (toString x).toList

/-- A number as it is written into messages. -/
def display (d : Decimal) : String :=
  String.ofList ((if d.negative then ['-'] else []) ++ unsignedDisplay d.mantissa d.exponent)

/-! ## Binary formats -/

/-- The magnitude in a binary format whose greatest power of ten is `limit`: an exponent below `-limit` is taken
away in two divisions. There is none for zero times infinity. -/
def rank? (d : Decimal) (f : Binary.Format) (limit : Nat) : Option Nat :=
  let n := Binary.round f d.mantissa 1
  if d.exponent < -limit then
    let k := (-(d.exponent + limit)).toNat
    some (Binary.div f (Binary.div f n (Binary.powTen f k)) (Binary.powTen f limit))
  else if d.exponent < 0 then some (Binary.div f n (Binary.powTen f d.exponent.natAbs))
  else Binary.mul? f n (Binary.powTen f d.exponent.toNat)

/-- The number in single precision. -/
def toSingle (d : Decimal) : Single :=
  match d.rank? .single 127 with
  | some rank => .ofRank d.negative rank
  | none => .nan

/-- The natural number of 32 bits that a number is in double precision, if it is one. -/
def toWord? (d : Decimal) : Option UInt32 := do
  let rank ← d.rank? .double 308
  if d.negative && rank ≠ 0 then none
  else
    let n ← Binary.integer? .double rank
    if n < UInt32.size then some n.toUInt32 else none

end Decimal

end Progression
