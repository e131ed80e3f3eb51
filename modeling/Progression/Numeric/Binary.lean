/-!
# Binary floating-point magnitudes

A format lists the magnitudes it can hold in increasing order, infinity last. The place of a magnitude in that list,
its rank, is also its bit pattern, so ranks compare as the magnitudes do. `round` takes a quotient to the nearest
rank, and of two equally near ones to the even one.
-/

namespace Progression.Binary

structure Format where
  /-- Binary digits of a magnitude, the leading one counted. -/
  precision : Nat
  exponentBits : Nat
  deriving DecidableEq, Repr

def Format.single : Format := ⟨24, 8⟩

def Format.double : Format := ⟨53, 11⟩

namespace Format

variable (f : Format)

/-- The exponent of the least step between two magnitudes. -/
def minExponent : Int := 3 - Nat.pow 2 (f.exponentBits - 1) - f.precision

/-- The number of ranks that share one step. -/
def binade : Nat := Nat.pow 2 (f.precision - 1)

/-- The rank of infinity. -/
def infinity : Nat := (Nat.pow 2 f.exponentBits - 1) * f.binade

/-- The number of steps of size `2 ^ exponent` that a finite magnitude has. -/
def significand (rank : Nat) : Nat :=
  if rank < f.binade then rank else rank % f.binade + f.binade

def exponent (rank : Nat) : Int := f.minExponent + (rank / f.binade - 1 : Nat)

end Format

/-- The natural number nearest to `n / d`; a half goes to the even neighbour. -/
def roundHalfEven (n d : Nat) : Nat :=
  let q := n / d
  let r := n % d
  if 2 * r < d ∨ (2 * r = d ∧ q % 2 = 0) then q else q + 1

/-- The exponent of the step on which `n / d` is rounded. -/
def stepExponent (f : Format) (n d : Nat) : Int :=
  let e := max f.minExponent ((n.log2 : Int) - d.log2 - f.precision)
  if n * Nat.pow 2 (-e).toNat < Nat.pow 2 f.precision * (d * Nat.pow 2 e.toNat) then e else e + 1

/-- The rank nearest to `n / d`. -/
def round (f : Format) (n d : Nat) : Nat :=
  if n = 0 then 0
  else
    let e := stepExponent f n d
    let m := roundHalfEven (n * Nat.pow 2 (-e).toNat) (d * Nat.pow 2 e.toNat)
    min f.infinity ((e - f.minExponent).toNat * f.binade + m)

/-- The quotient `m * 2 ^ a / (n * 2 ^ b)`, rounded. -/
def roundScaled (f : Format) (m n : Nat) (a b : Int) : Nat :=
  round f (m * Nat.pow 2 (a - b).toNat) (n * Nat.pow 2 (b - a).toNat)

/-- The product; there is none of zero and infinity. -/
def mul? (f : Format) (x y : Nat) : Option Nat :=
  if x = f.infinity ∨ y = f.infinity then if x = 0 ∨ y = 0 then none else some f.infinity
  else some (roundScaled f (f.significand x * f.significand y) 1 (f.exponent x + f.exponent y) 0)

/-- The quotient of a finite magnitude by one that is not zero. -/
def div (f : Format) (x y : Nat) : Nat :=
  if y = f.infinity then 0
  else roundScaled f (f.significand x) (f.significand y) (f.exponent x) (f.exponent y)

/-- The rank nearest to a power of ten. -/
def powTen (f : Format) (k : Nat) : Nat := round f (Nat.pow 10 k) 1

/-- The rank in `g` nearest to a magnitude of `f`. -/
def convert (f g : Format) (x : Nat) : Nat :=
  if x = f.infinity then g.infinity else roundScaled g (f.significand x) 1 (f.exponent x) 0

/-- The integer that a finite magnitude is, if it is one. -/
def integer? (f : Format) (x : Nat) : Option Nat :=
  if x = f.infinity then none
  else
    let m := f.significand x
    let e := f.exponent x
    let unit := Nat.pow 2 (-e).toNat
    if m % unit = 0 then some (m * Nat.pow 2 e.toNat / unit) else none

end Progression.Binary
