import Progression.Json.Quoted
import Progression.Json.Tree

/-!
# Writing JSON

A tree is written without spaces by `compact`, and one value a line by `pretty`, two spaces deeper in each container.
-/

namespace Progression.Json

def digitChars (ds : List Nat) : List Char := ds.map Nat.digitChar

/-- The digits of a number. -/
def Number.chars (n : Number) : List Char :=
  (if n.negative then ['-'] else []) ++ digitChars n.whole ++
    (if n.fraction.isEmpty then [] else '.' :: digitChars n.fraction) ++
    match n.exponent with
    | none => []
    | some (true, ds) => 'e' :: '-' :: digitChars ds
    | some (false, ds) => 'e' :: digitChars ds

/-- A piece of a string as it stands inside quotes. -/
def Piece.chars : Piece → List Char
  | char c => quotedChar c
  | unit n =>
    '\\' :: 'u' :: [n / 4096, n / 256 % 16, n / 16 % 16, n % 16].map Nat.digitChar

def stringChars (ps : List Piece) : List Char := '"' :: ps.flatMap Piece.chars ++ ['"']

/-- Values that are written the same in both ways. -/
def Tree.scalarChars : Tree → List Char
  | null => ['n', 'u', 'l', 'l']
  | bool true => ['t', 'r', 'u', 'e']
  | bool false => ['f', 'a', 'l', 's', 'e']
  | number n => n.chars
  | string ps => stringChars ps
  | array _ => ['[', ']']
  | object _ => ['\x7b', '\x7d']

/-- A new line in a container at a depth. -/
def newline (depth : Nat) : List Char := '\n' :: List.replicate (2 * depth) ' '

mutual

def Tree.compactChars : Tree → List Char
  | .array items => '[' :: compactItems items ++ [']']
  | .object members => '\x7b' :: compactMembers members ++ ['\x7d']
  | t => t.scalarChars

def compactItems : List Tree → List Char
  | [] => []
  | [t] => t.compactChars
  | t :: ts => t.compactChars ++ ',' :: compactItems ts

def compactMembers : List (List Piece × Tree) → List Char
  | [] => []
  | [(key, t)] => stringChars key ++ ':' :: t.compactChars
  | (key, t) :: ts => stringChars key ++ ':' :: t.compactChars ++ ',' :: compactMembers ts

end

mutual

def Tree.prettyChars (depth : Nat) : Tree → List Char
  | .array [] => ['[', ']']
  | .array items => '[' :: prettyItems (depth + 1) items ++ newline depth ++ [']']
  | .object [] => ['\x7b', '\x7d']
  | .object members => '\x7b' :: prettyMembers (depth + 1) members ++ newline depth ++ ['\x7d']
  | t => t.scalarChars

def prettyItems (depth : Nat) : List Tree → List Char
  | [] => []
  | [t] => newline depth ++ t.prettyChars depth
  | t :: ts => newline depth ++ t.prettyChars depth ++ ',' :: prettyItems depth ts

def prettyMembers (depth : Nat) : List (List Piece × Tree) → List Char
  | [] => []
  | [(key, t)] => newline depth ++ stringChars key ++ [':', ' '] ++ t.prettyChars depth
  | (key, t) :: ts =>
    newline depth ++ stringChars key ++ [':', ' '] ++ t.prettyChars depth ++ ',' :: prettyMembers depth ts

end

namespace Tree

def compact (t : Tree) : String := String.ofList t.compactChars

def pretty (t : Tree) : String := String.ofList (t.prettyChars 0)

/-! ## Trees of plain values -/

def text (s : String) : Tree := .string (ofText s)

def nat (n : Nat) : Tree := .number ⟨false, (Nat.toDigits 10 n).map fun c => c.toNat - '0'.toNat, [], none⟩

/-- An object with the keys as they are given. -/
def record (members : List (String × Tree)) : Tree := .object (members.map fun m => (ofText m.1, m.2))

end Tree

end Progression.Json
