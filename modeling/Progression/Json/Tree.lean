/-!
# JSON as it is written

A tree keeps numbers by their digits and strings by their characters and escapes. What a number or a string means is
left to who asks: a string with half of a surrogate pair has a tree but no text (`text?`).
-/

namespace Progression.Json

/-- A number by its digits. There are none after the point if and only if there is no point. -/
structure Number where
  negative : Bool
  whole : List Nat
  fraction : List Nat
  /-- Whether the exponent is negative, and its digits. -/
  exponent : Option (Bool × List Nat)
  deriving DecidableEq, Repr

/-- A character of a string, or an escaped UTF-16 unit. -/
inductive Piece
  | char (c : Char)
  | unit (n : Nat)
  deriving DecidableEq, Repr

inductive Tree
  | null
  | bool (value : Bool)
  | number (n : Number)
  | string (pieces : List Piece)
  | array (items : List Tree)
  | object (members : List (List Piece × Tree))

def isSurrogate (n : Nat) : Bool := 0xD800 ≤ n && n ≤ 0xDFFF

/-- The character that two units write together. -/
def surrogatePair? (high low : Nat) : Option Char :=
  if 0xD800 ≤ high ∧ high ≤ 0xDBFF ∧ 0xDC00 ≤ low ∧ low ≤ 0xDFFF then
    some (Char.ofNat (0x10000 + (high - 0xD800) * 0x400 + (low - 0xDC00)))
  else none

/-- The characters that the pieces of a string write, if its surrogates come in pairs. -/
def chars? : List Piece → Option (List Char)
  | [] => some []
  | .char c :: ps => (chars? ps).map (c :: ·)
  | .unit high :: .unit low :: ps =>
    if isSurrogate high then do return (← surrogatePair? high low) :: (← chars? ps)
    else (chars? (.unit low :: ps)).map (Char.ofNat high :: ·)
  | .unit n :: ps => if isSurrogate n then none else (chars? ps).map (Char.ofNat n :: ·)

/-- The text that the pieces of a string write, if its surrogates come in pairs. -/
def text? (ps : List Piece) : Option String :=
  (chars? ps).map String.ofList

/-- The pieces of a text without escapes. -/
def ofText (s : String) : List Piece := s.toList.map .char

end Progression.Json
