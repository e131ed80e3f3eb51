import Progression.Json.SyntaxError
import Progression.Json.Tree
import Progression.Text.Hexadecimal

/-!
# Words, numbers and strings of JSON

Each reader answers what it read and what is left of the text, which is shorter (`length_readWord`, `length_readNumber`,
`length_readString`). A dialect says what the readers of two kinds of text do differently.
-/

namespace Progression.Json

/-- What a kind of text allows. -/
structure Dialect where
  blank : Char → Bool
  /-- How many containers with contents may be open at once, if there is a bound. -/
  depth : Option Nat
  /-- Whether an escaped surrogate has to be followed at once by the other half of its pair. -/
  pairsSurrogates : Bool
  /-- Whether a number may have these digits before its point. -/
  allowsWhole : List Nat → Bool

/-- Reads the characters of a word. -/
def readWord : List Char → List Char → Except SyntaxError (List Char)
  | [], s => .ok s
  | _ :: _, [] => .error .unexpectedEnd
  | c :: cs, d :: s => if c = d then readWord cs s else .error .unexpectedCharacter

theorem length_readWord {cs s r : List Char} (h : readWord cs s = .ok r) : r.length ≤ s.length := by
  induction cs generalizing s with
  | nil => cases h; exact Nat.le_refl _
  | cons c cs ih =>
    cases s with
    | nil => simp [readWord] at h
    | cons d s =>
      rw [readWord] at h
      split at h
      · exact Nat.le_succ_of_le (ih h)
      · simp at h

/-! ## Numbers -/

def isDecimal (c : Char) : Bool := '0'.toNat ≤ c.toNat && c.toNat ≤ '9'.toNat

def decimalValue (c : Char) : Nat := c.toNat - '0'.toNat

/-- The digits at the beginning of a text and what follows them. -/
def spanDigits (s : List Char) : List Nat × List Char :=
  ((s.takeWhile isDecimal).map decimalValue, s.dropWhile isDecimal)

/-- Reads one digit or more. -/
def someDigits (s : List Char) : Except SyntaxError (List Nat × List Char) :=
  match s with
  | [] => .error .unexpectedEnd
  | c :: _ => if isDecimal c then .ok (spanDigits s) else .error .unexpectedCharacter

/-- Reads the digits before the point: a zero stands alone. -/
def wholeDigits : List Char → Except SyntaxError (List Nat × List Char)
  | '0' :: s => .ok ([0], s)
  | s => someDigits s

/-- Reads the digits after a point, if there is one. -/
def fractionDigits : List Char → Except SyntaxError (List Nat × List Char)
  | '.' :: s => someDigits s
  | s => .ok ([], s)

/-- Reads an exponent, if there is one. -/
def exponentDigits : List Char → Except SyntaxError (Option (Bool × List Nat) × List Char)
  | [] => .ok (none, [])
  | c :: s =>
    if c = 'e' ∨ c = 'E' then
      match s with
      | '-' :: s => (someDigits s).map fun p => (some (true, p.1), p.2)
      | '+' :: s => (someDigits s).map fun p => (some (false, p.1), p.2)
      | s => (someDigits s).map fun p => (some (false, p.1), p.2)
    else .ok (none, c :: s)

/-- Reads a number whose sign has been read. -/
def readUnsigned (d : Dialect) (negative : Bool) (s : List Char) : Except SyntaxError (Number × List Char) := do
  let (whole, s) ← wholeDigits s
  if d.allowsWhole whole then
    let (fraction, s) ← fractionDigits s
    let (exponent, s) ← exponentDigits s
    return (⟨negative, whole, fraction, exponent⟩, s)
  else throw .tooDeep

/-- Reads a number. -/
def readNumber (d : Dialect) : List Char → Except SyntaxError (Number × List Char)
  | '-' :: s => readUnsigned d true s
  | s => readUnsigned d false s

theorem length_dropWhile_le {α : Type} (p : α → Bool) (l : List α) : (l.dropWhile p).length ≤ l.length :=
  (List.dropWhile_suffix p).length_le

theorem length_someDigits {s r : List Char} {ds : List Nat} (h : someDigits s = .ok (ds, r)) :
    r.length < s.length := by
  cases s with
  | nil => simp [someDigits] at h
  | cons c s =>
    by_cases hc : isDecimal c
    · simp only [someDigits, hc, if_true, spanDigits, List.dropWhile_cons, Except.ok.injEq, Prod.mk.injEq] at h
      rw [← h.2]
      exact Nat.lt_succ_of_le (length_dropWhile_le _ _)
    · simp [someDigits, hc] at h

theorem length_wholeDigits {s r : List Char} {ds : List Nat} (h : wholeDigits s = .ok (ds, r)) :
    r.length < s.length := by
  unfold wholeDigits at h
  split at h
  · simp only [Except.ok.injEq, Prod.mk.injEq] at h
    simp [← h.2]
  · exact length_someDigits h

theorem length_fractionDigits {s r : List Char} {ds : List Nat} (h : fractionDigits s = .ok (ds, r)) :
    r.length ≤ s.length := by
  unfold fractionDigits at h
  split at h
  · exact Nat.le_succ_of_le (Nat.le_of_lt (length_someDigits h))
  · simp only [Except.ok.injEq, Prod.mk.injEq] at h
    simp [← h.2]

theorem length_exponentDigits {s r : List Char} {e : Option (Bool × List Nat)}
    (h : exponentDigits s = .ok (e, r)) : r.length ≤ s.length := by
  have key : ∀ {b : Bool} {t : List Char},
      (someDigits t).map (fun p => (some (b, p.1), p.2)) = .ok (e, r) → r.length < t.length := by
    intro b t ht
    cases hs : someDigits t with
    | error x => simp [hs, Except.map] at ht
    | ok p =>
      simp only [hs, Except.map, Except.ok.injEq, Prod.mk.injEq] at ht
      rw [← ht.2]
      exact length_someDigits hs
  unfold exponentDigits at h
  split at h
  · simp only [Except.ok.injEq, Prod.mk.injEq] at h
    simp [← h.2]
  · split at h
    · split at h
      · exact Nat.le_trans (Nat.le_of_lt (key h)) (by simp; omega)
      · exact Nat.le_trans (Nat.le_of_lt (key h)) (by simp; omega)
      · exact Nat.le_trans (Nat.le_of_lt (key h)) (by simp)
    · simp only [Except.ok.injEq, Prod.mk.injEq] at h
      simp [← h.2]

theorem length_readUnsigned {d : Dialect} {b : Bool} {s r : List Char} {n : Number}
    (h : readUnsigned d b s = .ok (n, r)) : r.length < s.length := by
  simp only [readUnsigned, bind, Except.bind, pure, Except.pure, throw, throwThe, MonadExceptOf.throw] at h
  split at h
  · simp at h
  · next p hp =>
    have h1 := length_wholeDigits hp
    split at h
    · split at h
      · simp at h
      · next q hq =>
        have h2 := length_fractionDigits hq
        split at h
        · simp at h
        · next e he =>
          have h3 := length_exponentDigits he
          simp only [Except.ok.injEq, Prod.mk.injEq] at h
          rw [← h.2]
          omega
    · simp at h

theorem length_readNumber {d : Dialect} {s r : List Char} {n : Number} (h : readNumber d s = .ok (n, r)) :
    r.length < s.length := by
  unfold readNumber at h
  split at h
  · exact Nat.lt_succ_of_lt (length_readUnsigned h)
  · exact length_readUnsigned h

/-! ## Strings -/

/-- The character that a letter after a backslash writes. -/
def escape? : Char → Option Char
  | '"' => some '"'
  | '\\' => some '\\'
  | '/' => some '/'
  | 'b' => some '\x08'
  | 'f' => some '\x0c'
  | 'n' => some '\n'
  | 'r' => some '\r'
  | 't' => some '\t'
  | _ => none

/-- The UTF-16 unit that four digits of base sixteen write. -/
def unit? (a b c d : Char) : Option Nat := do
  return (((← Hexadecimal.digitValue? a) * 16 + (← Hexadecimal.digitValue? b)) * 16 +
    (← Hexadecimal.digitValue? c)) * 16 + (← Hexadecimal.digitValue? d)

/-- What is wrong with fewer than four digits of base sixteen at the end of a text. -/
def shortUnit (s : List Char) : SyntaxError :=
  if s.all Hexadecimal.isDigit then .unexpectedEnd else .unexpectedCharacter

/-- What is wrong with the text after an escaped surrogate `high`, where the other half has to follow. -/
def pairFault? (high : Nat) : List Char → Option SyntaxError
  | '\\' :: 'u' :: a :: b :: c :: d :: _ =>
    match unit? a b c d with
    | none => some .unexpectedCharacter
    | some low => if (surrogatePair? high low).isSome then none else some .badSurrogates
  | '\\' :: 'u' :: s => some (shortUnit s)
  | [] => some .unexpectedEnd
  | ['\\'] => some .unexpectedEnd
  | _ => some .unexpectedCharacter

/-- Reads a string after its opening quote. `second` says that an escaped surrogate stands just before, whose
other half is known to follow. -/
def readString (d : Dialect) (second : Bool) : List Char → Except SyntaxError (List Piece × List Char)
  | [] => .error .unexpectedEnd
  | '"' :: s => .ok ([], s)
  | '\\' :: 'u' :: h₁ :: h₂ :: h₃ :: h₄ :: s =>
    match unit? h₁ h₂ h₃ h₄ with
    | none => .error .unexpectedCharacter
    | some n =>
      let first := d.pairsSurrogates && !second && isSurrogate n
      match (if first then pairFault? n s else none) with
      | some e => .error e
      | none => (readString d first s).map fun p => (.unit n :: p.1, p.2)
  | '\\' :: 'u' :: s => .error (shortUnit s)
  | '\\' :: c :: s =>
    match escape? c with
    | none => .error .unexpectedCharacter
    | some e => (readString d false s).map fun p => (.char e :: p.1, p.2)
  | ['\\'] => .error .unexpectedEnd
  | c :: s =>
    if c.toNat < 0x20 then .error .unexpectedCharacter
    else (readString d false s).map fun p => (.char c :: p.1, p.2)

theorem length_readString {d : Dialect} {second : Bool} {s r : List Char} {ps : List Piece}
    (h : readString d second s = .ok (ps, r)) : r.length < s.length := by
  have key : ∀ {b : Bool} {t : List Char} {p : Piece} {qs : List Piece},
      (∀ {us : List Piece}, readString d b t = .ok (us, r) → r.length < t.length) →
      (readString d b t).map (fun q => (p :: q.1, q.2)) = .ok (qs, r) → r.length < t.length := by
    intro b t p qs ih ht
    cases hs : readString d b t with
    | error x => simp [hs, Except.map] at ht
    | ok q =>
      obtain ⟨us, v⟩ := q
      simp only [hs, Except.map, Except.ok.injEq, Prod.mk.injEq] at ht
      obtain ⟨-, rfl⟩ := ht
      exact ih hs
  fun_induction readString d second s generalizing ps with
  | case1 => simp at h
  | case2 => cases h; simp
  | case3 => simp at h
  | case4 => simp at h
  | case5 =>
    rename_i ih
    have := key ih h
    simp only [List.length_cons]
    omega
  | case6 => simp at h
  | case7 => simp at h
  | case8 =>
    rename_i ih
    have := key ih h
    simp only [List.length_cons]
    omega
  | case9 => simp at h
  | case10 => simp at h
  | case11 =>
    rename_i ih
    have := key ih h
    simp only [List.length_cons]
    omega

end Progression.Json
