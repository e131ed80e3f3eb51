/-!
# Numbers in base sixteen

`digits` writes a number with capital digits, `read` reads one below a bound. Reading takes digits of either case
after at most one plus sign. The first character that is no digit, or that takes the number to the bound, decides
which error it is.
-/

namespace Progression

/-- Why a text is no number of the wanted size. -/
inductive NumeralError
  | empty
  | invalidDigit
  | tooLarge
  deriving DecidableEq, Repr

namespace NumeralError

def message : NumeralError → String
  | empty => "cannot parse integer from empty string"
  | invalidDigit => "invalid digit found in string"
  | tooLarge => "number too large to fit in target type"

end NumeralError

namespace Hexadecimal

/-- The value of a digit of base sixteen. -/
def digitValue? (c : Char) : Option Nat :=
  if '0' ≤ c ∧ c ≤ '9' then some (c.toNat - '0'.toNat)
  else if 'a' ≤ c ∧ c ≤ 'f' then some (c.toNat - 'a'.toNat + 10)
  else if 'A' ≤ c ∧ c ≤ 'F' then some (c.toNat - 'A'.toNat + 10)
  else none

def isDigit (c : Char) : Bool := (digitValue? c).isSome

/-- The digits of `n`, most significant first, filled up with zeros to `width` places. -/
def digits (width n : Nat) : List Char :=
  ((Nat.toDigits 16 n).map Char.toUpper).leftpad width '0'

/-- Reads digits after a first part of value `acc`; the value stays below `bound`. -/
def readDigits (bound : Nat) (acc : Nat) : List Char → Except NumeralError Nat
  | [] => .ok acc
  | c :: s =>
    match digitValue? c with
    | none => .error .invalidDigit
    | some d => if acc * 16 + d < bound then readDigits bound (acc * 16 + d) s else .error .tooLarge

/-- The number below `bound` that a text writes. A sign alone is no number. -/
def read (bound : Nat) : List Char → Except NumeralError Nat
  | [] => .error .empty
  | ['+'] => .error .invalidDigit
  | '+' :: s => readDigits bound 0 s
  | s => readDigits bound 0 s

end Hexadecimal

end Progression
