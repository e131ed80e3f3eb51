import Progression.Json.Lexical

/-!
# Reading JSON

`readTree d s` reads the whole text `s` as one value in the dialect `d`. Every reader answers with a rest that is
shorter than what it was given, so reading ends.
-/

namespace Progression.Json

/-- What is left after something was read from the beginning of `s`. -/
abbrev Rest (s : List Char) := { r : List Char // r.length < s.length }

/-- A rest of a text that is itself left of `s`. -/
def Rest.widen {s t : List Char} (h : t.length ≤ s.length) (r : Rest t) : Rest s :=
  ⟨r.1, Nat.lt_of_lt_of_le r.2 h⟩

/-- Reads a word that means the value `t` and whose first letter has been read. -/
def wordValue (t : Tree) (rest : List Char) (s : List Char) :
    Except SyntaxError (Tree × { r : List Char // r.length ≤ s.length }) :=
  match h : readWord rest s with
  | .error e => .error e
  | .ok r => .ok (t, ⟨r, length_readWord h⟩)

/-- Reads a string whose opening quote has been read. -/
def stringValue (d : Dialect) (s : List Char) : Except SyntaxError (List Piece × Rest s) :=
  match h : readString d false s with
  | .error e => .error e
  | .ok (ps, r) => .ok (ps, ⟨r, length_readString h⟩)

def numberValue (d : Dialect) (s : List Char) : Except SyntaxError (Tree × Rest s) :=
  match h : readNumber d s with
  | .error e => .error e
  | .ok (n, r) => .ok (.number n, ⟨r, length_readNumber h⟩)

/-- Reads the key of a member and the colon after it. -/
def readKey (d : Dialect) (s : List Char) : Except SyntaxError (List Piece × Rest s) :=
  match h : s.dropWhile d.blank with
  | [] => .error .unexpectedEnd
  | '"' :: t => do
    let (key, ⟨r, hr⟩) ← stringValue d t
    match h' : r.dropWhile d.blank with
    | [] => throw .unexpectedEnd
    | ':' :: u =>
      return (key, ⟨u, by
        have h1 := length_dropWhile_le d.blank s
        have h2 := length_dropWhile_le d.blank r
        simp only [h, h', List.length_cons] at h1 h2
        omega⟩)
    | _ => throw .unexpectedCharacter
  | _ => .error .unexpectedCharacter

/-- Whether one more container with contents may be opened inside `depth` open ones. -/
def Dialect.allowsDepth (d : Dialect) (depth : Nat) : Bool :=
  match d.depth with
  | none => true
  | some bound => depth < bound

mutual

/-- Reads one value inside `depth` open containers. -/
def readValue (d : Dialect) (depth : Nat) (s : List Char) : Except SyntaxError (Tree × Rest s) :=
  match h : s.dropWhile d.blank with
  | [] => .error .unexpectedEnd
  | c :: t =>
    have ht : t.length < s.length := by
      have := length_dropWhile_le d.blank s
      simp only [h, List.length_cons] at this
      omega
    if c = '[' then
      match h' : t.dropWhile d.blank with
      | [] => .error .unexpectedEnd
      | c' :: u =>
        have hu : u.length < s.length := by
          have := length_dropWhile_le d.blank t
          simp only [h', List.length_cons] at this
          omega
        if c' = ']' then .ok (.array [], ⟨u, hu⟩)
        else if d.allowsDepth depth then
          (readItems d (depth + 1) t).map fun p => (.array p.1, p.2.widen (Nat.le_of_lt ht))
        else .error .tooDeep
    else if c = '\x7b' then
      match h' : t.dropWhile d.blank with
      | [] => .error .unexpectedEnd
      | c' :: u =>
        have hu : u.length < s.length := by
          have := length_dropWhile_le d.blank t
          simp only [h', List.length_cons] at this
          omega
        if c' = '\x7d' then .ok (.object [], ⟨u, hu⟩)
        else if d.allowsDepth depth then
          (readMembers d (depth + 1) t).map fun p => (.object p.1, p.2.widen (Nat.le_of_lt ht))
        else .error .tooDeep
    else if c = '"' then
      (stringValue d t).map fun p => (.string p.1, p.2.widen (Nat.le_of_lt ht))
    else if c = 't' then
      (wordValue (.bool true) ['r', 'u', 'e'] t).map fun p => (p.1, ⟨p.2.1, Nat.lt_of_le_of_lt p.2.2 ht⟩)
    else if c = 'f' then
      (wordValue (.bool false) ['a', 'l', 's', 'e'] t).map fun p => (p.1, ⟨p.2.1, Nat.lt_of_le_of_lt p.2.2 ht⟩)
    else if c = 'n' then
      (wordValue .null ['u', 'l', 'l'] t).map fun p => (p.1, ⟨p.2.1, Nat.lt_of_le_of_lt p.2.2 ht⟩)
    else if c = '-' ∨ isDecimal c then
      have hc : (c :: t).length ≤ s.length := ht
      (numberValue d (c :: t)).map fun p => (p.1, p.2.widen hc)
    else .error .unexpectedCharacter
termination_by (s.length, 0)

/-- Reads the items of an array up to its closing bracket; there is one at least. -/
def readItems (d : Dialect) (depth : Nat) (s : List Char) : Except SyntaxError (List Tree × Rest s) :=
  match readValue d depth s with
  | .error e => .error e
  | .ok (x, ⟨r, hr⟩) =>
    match h : r.dropWhile d.blank with
    | [] => .error .unexpectedEnd
    | c :: t =>
      have ht : t.length < s.length := by
        have := length_dropWhile_le d.blank r
        simp only [h, List.length_cons] at this
        omega
      if c = ',' then (readItems d depth t).map fun p => (x :: p.1, p.2.widen (Nat.le_of_lt ht))
      else if c = ']' then .ok ([x], ⟨t, ht⟩)
      else .error .unexpectedCharacter
termination_by (s.length, 1)

/-- Reads the members of an object up to its closing brace; there is one at least. -/
def readMembers (d : Dialect) (depth : Nat) (s : List Char) :
    Except SyntaxError (List (List Piece × Tree) × Rest s) :=
  match readKey d s with
  | .error e => .error e
  | .ok (key, ⟨k, hk⟩) =>
    match readValue d depth k with
    | .error e => .error e
    | .ok (x, ⟨r, hr⟩) =>
      match h : r.dropWhile d.blank with
      | [] => .error .unexpectedEnd
      | c :: t =>
        have ht : t.length < s.length := by
          have := length_dropWhile_le d.blank r
          simp only [h, List.length_cons] at this
          omega
        if c = ',' then
          (readMembers d depth t).map fun p => ((key, x) :: p.1, p.2.widen (Nat.le_of_lt ht))
        else if c = '\x7d' then .ok ([(key, x)], ⟨t, ht⟩)
        else .error .unexpectedCharacter
termination_by (s.length, 1)

end

/-- Reads a text as one value with nothing but blanks around it. -/
def readTree (d : Dialect) (s : List Char) : Except SyntaxError Tree := do
  let (t, ⟨r, _⟩) ← readValue d 0 s
  if r.all d.blank then return t else throw .unexpectedCharacter

end Progression.Json
