/-!
# Choosing at random

Choices are made with 32-bit words from a given list; after its end every word is zero. A number below a bound is the
high half of the product of a word and the bound. Words whose low half is too great are passed over, so that every
number has the same number of words; a zero word is never passed over, so choosing ends.
-/

namespace Progression

/-- The words still to come, and how many were drawn. -/
structure Draws where
  words : List UInt32
  used : Nat
  deriving DecidableEq, Repr

abbrev Drawing (α : Type) := StateM Draws α

namespace Draws

/-- The greatest low half that a word for numbers below `n` may have. -/
def zone (n : Nat) : Nat := n * Nat.pow 2 (31 - n.log2) - 1

/-- The number below `n` that a word stands for, if it stands for one. -/
def number? (n : Nat) (w : UInt32) : Option Nat :=
  let p := w.toNat * n
  if p % UInt32.size ≤ zone n then some (p / UInt32.size) else none

/-- A number below `n`. -/
def below (n : Nat) : Drawing Nat := fun d => go d.words d.used
where
  go : List UInt32 → Nat → Nat × Draws
    | [], used => (0, ⟨[], used + 1⟩)
    | w :: ws, used =>
      match number? n w with
      | some i => (i, ⟨ws, used + 1⟩)
      | none => go ws (used + 1)

variable {α : Type}

/-- One element of a list, if it has any. -/
def choose (l : List α) : Drawing (Option α) :=
  if l = [] then return none else return l[← below l.length]?

/-- Adds a position up to `j` to distinct positions below `j`: the drawn one, or `j` before it if it is there. -/
def addPosition (j : Nat) (positions : List Nat) : Drawing (List Nat) := do
  let t ← below (j + 1)
  return if t ∈ positions then positions.insertIdx (positions.idxOf t) j else positions ++ [t]

/-- Distinct positions in a list of length `n`: `k` of them, or all if there are fewer. -/
def positions (k n : Nat) : Drawing (List Nat) :=
  let k := min k n
  (List.range k).foldlM (fun ps i => addPosition (n - k + i) ps) []

/-- Elements at distinct positions of a list: `k` of them, or all if there are fewer. -/
def sample (k : Nat) (l : List α) : Drawing (List α) :=
  return (← positions k l.length).filterMap (l[·]?)

theorem number?_lt {n : Nat} {w : UInt32} {i : Nat} (hn : 0 < n) (h : number? n w = some i) : i < n := by
  simp only [number?] at h
  split at h
  · cases h
    refine Nat.div_lt_of_lt_mul ?_
    exact (Nat.mul_lt_mul_right hn).2 w.toNat_lt
  · simp at h

end Draws

end Progression
