import Progression.Json.Reader
import Progression.Numeric.Single

/-!
# Strict JSON

In records JSON is read strictly: blanks are the space, the tab and the two line ends. A number without point and
exponent that fits 64 bits is an integer; any other number is a quotient or product of two doubles, its significand
and a power of ten, and must not overflow.
-/

namespace Progression.Json

/-- A space, a tab or a line end. -/
def isStrictBlank (c : Char) : Bool := c == ' ' || c == '\t' || c == '\n' || c == '\r'

def strict : Dialect := ⟨isStrictBlank, none, false, fun _ => true⟩

/-- The tree of a text in strict JSON. -/
def parse? (s : String) : Option Tree := (readTree strict s.toList).toOption

namespace Number

/-- A significand stays below this bound. -/
def significandBound : Nat := UInt64.size

/-- Takes in digits while they fit; answers the significand and the digits that are left. -/
def fill (m : Nat) : List Nat → Nat × List Nat
  | [] => (m, [])
  | d :: ds => if m * 10 + d < significandBound then fill (m * 10 + d) ds else (m, d :: ds)

/-- The significand and the decimal exponent. Digits before the point that do not fit raise the exponent; digits
after it that do not fit are dropped. -/
def significand (n : Number) : Nat × Int :=
  let (head, excess) := fill 0 n.whole
  let (m, dropped) := fill head n.fraction
  let explicit : Int := match n.exponent with
    | none => 0
    | some (negative, ds) =>
      let x : Nat := ds.foldl (fun x d => x * 10 + d) 0
      if negative then -x else x
  (m, excess.length - (n.fraction.length - dropped.length : Nat) + explicit)

/-- The natural number that is written without point and exponent. -/
def natural? (n : Number) : Option Nat :=
  if n.fraction = [] ∧ n.exponent = none then some (n.whole.foldl (fun x d => x * 10 + d) 0) else none

/-- The greatest power of ten that a double holds. -/
def greatestPower : Nat := 308

/-- Divides a double by a power of ten, in steps. -/
def scaleDown (x k : Nat) : Nat :=
  if k ≤ greatestPower then Binary.div .double x (Binary.powTen .double k)
  else if x = 0 then 0
  else scaleDown (Binary.div .double x (Binary.powTen .double greatestPower)) (k - greatestPower)
termination_by k
decreasing_by simp only [greatestPower] at *; omega

/-- The magnitude of a double, unless it is too great. -/
def double? (n : Number) : Option Nat :=
  let (m, e) := n.significand
  let x := Binary.round .double m 1
  if e < 0 then some (scaleDown x e.natAbs)
  else if e ≤ greatestPower then
    (Binary.mul? .double x (Binary.powTen .double e.toNat)).filter (· ≠ Binary.Format.double.infinity)
  else if x = 0 then some 0
  else none

/-- Whether a number is kept as an integer of 64 bits. -/
def isInteger (n : Number) : Bool :=
  match n.natural? with
  | none => false
  | some m => if n.negative then 0 < m && 2 * m ≤ UInt64.size else m < UInt64.size

/-- The number in single precision: an integer is rounded once, any other number is a double first. -/
def single? (n : Number) : Option Single :=
  if n.isInteger then some (.ofRank n.negative (Binary.round .single (n.natural?.getD 0) 1))
  else n.double?.map fun x => .ofRank n.negative (Binary.convert .double .single x)

end Number

end Progression.Json
