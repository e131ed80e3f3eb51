import Mathlib.Data.List.Basic
import Progression.Text.Pieces

/-!
# Byte positions in a text

A position counts the bytes before it in UTF-8. A text can be cut at a position only where a character begins or the
text ends (`splitAtByte?_eq_some`). The position of the first character of some kind is such a place
(`findByte?_append_cons`), so cutting there gives what stands before the character and what begins with it.
-/

namespace Progression.Text

section Defs

/-- The bytes that a text takes. -/
def byteSize (s : List Char) : Nat := (String.ofList s).utf8ByteSize

/-- The two parts of a text that a position divides; there are none if it is inside a character or behind the end. -/
def splitAtByte? : Nat → List Char → Option (List Char × List Char)
  | 0, s => some ([], s)
  | _ + 1, [] => none
  | n + 1, c :: s =>
    if c.utf8Size ≤ n + 1 then (splitAtByte? (n + 1 - c.utf8Size) s).map fun p => (c :: p.1, p.2) else none

/-- The part of a text between two positions, if it can be cut at both. -/
def slice? (i j : Nat) (s : List Char) : Option (List Char) := do
  let (before, _) ← splitAtByte? j s
  let (_, part) ← splitAtByte? i before
  return part

/-- The position of the first character with `p`. -/
def findByte? (p : Char → Bool) : List Char → Option Nat
  | [] => none
  | c :: s => if p c then some 0 else (findByte? p s).map (c.utf8Size + ·)

end Defs

variable {s a b : List Char} {p : Char → Bool} {n : Nat} {d : Char}

/-! ## Sizes -/

section Sizes

@[simp] theorem byteSize_nil : byteSize [] = 0 := rfl

@[simp] theorem byteSize_cons (d : Char) (s : List Char) : byteSize (d :: s) = d.utf8Size + byteSize s := by
  rw [byteSize, String.ofList_cons, String.utf8ByteSize_append, String.utf8ByteSize_singleton, byteSize]

@[simp] theorem byteSize_append (a b : List Char) : byteSize (a ++ b) = byteSize a + byteSize b := by
  induction a with
  | nil => simp
  | cons d a ih => simp [ih, Nat.add_assoc]

theorem byteSize_eq_zero : byteSize s = 0 ↔ s = [] := by
  cases s with
  | nil => simp
  | cons d s =>
    have hpos : 0 < d.utf8Size := d.utf8Size_pos
    simp only [byteSize_cons, reduceCtorEq, iff_false]
    omega

end Sizes

/-! ## Cutting -/

section Cutting

theorem splitAtByte?_byteSize (a b : List Char) : splitAtByte? (byteSize a) (a ++ b) = some (a, b) := by
  induction a with
  | nil => cases b <;> rfl
  | cons d a ih =>
    have hpos : 0 < d.utf8Size := d.utf8Size_pos
    obtain ⟨m, hm⟩ : ∃ m, byteSize (d :: a) = m + 1 := ⟨d.utf8Size + byteSize a - 1, by simp; omega⟩
    have hle : d.utf8Size ≤ m + 1 := by
      rw [← hm, byteSize_cons]
      omega
    have hrest : m + 1 - d.utf8Size = byteSize a := by
      rw [← hm, byteSize_cons]
      omega
    rw [hm, List.cons_append, splitAtByte?, if_pos hle, hrest, ih, Option.map_some]

/-- A position divides a text where its first part takes as many bytes. -/
theorem splitAtByte?_eq_some : splitAtByte? n s = some (a, b) ↔ s = a ++ b ∧ byteSize a = n := by
  constructor
  · intro h
    induction s generalizing n a with
    | nil =>
      cases n with
      | zero => cases h; exact ⟨rfl, rfl⟩
      | succ n => cases h
    | cons d s ih =>
      cases n with
      | zero => cases h; exact ⟨rfl, rfl⟩
      | succ n =>
        rw [splitAtByte?] at h
        split at h
        · next hle =>
          obtain ⟨⟨a', b'⟩, hs, heq⟩ := Option.map_eq_some_iff.1 h
          cases heq
          obtain ⟨rfl, hsize⟩ := ih hs
          refine ⟨rfl, ?_⟩
          rw [byteSize_cons, hsize]
          omega
        · cases h
  · rintro ⟨rfl, rfl⟩
    exact splitAtByte?_byteSize a b

/-- What follows a position behind the beginning is shorter than the text. -/
theorem length_lt_of_splitAtByte? (h : splitAtByte? (n + 1) s = some (a, b)) : b.length < s.length := by
  obtain ⟨rfl, hsize⟩ := splitAtByte?_eq_some.1 h
  cases a with
  | nil => simp at hsize
  | cons d a =>
    rw [List.length_append, List.length_cons]
    omega

theorem slice?_byteSize (a b c : List Char) :
    slice? (byteSize a) (byteSize a + byteSize b) (a ++ b ++ c) = some b := by
  have hend : splitAtByte? (byteSize a + byteSize b) (a ++ b ++ c) = some (a ++ b, c) := by
    rw [← byteSize_append]
    exact splitAtByte?_byteSize (a ++ b) c
  have hstart : splitAtByte? (byteSize a) (a ++ b) = some (a, b) := splitAtByte?_byteSize a b
  simp only [slice?, hend, hstart, Option.bind_eq_bind, Option.bind_some]
  rfl

end Cutting

/-! ## Finding -/

section Finding

theorem findByte?_eq_none (h : ∀ d ∈ s, p d = false) : findByte? p s = none := by
  induction s with
  | nil => rfl
  | cons d s ih =>
    obtain ⟨hd, hs⟩ := List.forall_mem_cons.1 h
    rw [findByte?, hd, ih hs]
    rfl

/-- The first character of a kind stands behind those that are not of the kind. -/
theorem findByte?_append_cons (ha : ∀ e ∈ a, p e = false) (hd : p d = true) :
    findByte? p (a ++ d :: b) = some (byteSize a) := by
  induction a with
  | nil => simp [findByte?, hd]
  | cons e a ih =>
    obtain ⟨he, ha⟩ := List.forall_mem_cons.1 ha
    rw [List.cons_append, findByte?, he, ih ha]
    simp

theorem findByte?_of_notMem (h : d ∉ s) : findByte? (· = d) s = none := by
  apply findByte?_eq_none
  intro e he
  simpa using fun heq : e = d => h (heq ▸ he)

theorem findByte?_append_cons_of_notMem (h : d ∉ a) : findByte? (· = d) (a ++ d :: b) = some (byteSize a) := by
  apply findByte?_append_cons
  · intro e he
    simpa using fun heq : e = d => h (heq ▸ he)
  · simp

/-- Where the text goes on with the first character without `p`, or ends, the longest part with `p` ends. -/
theorem findByte?_getD (p : Char → Bool) (s : List Char) :
    (findByte? (fun d => !p d) s).getD (byteSize s) = byteSize (s.takeWhile p) := by
  induction s with
  | nil => rfl
  | cons d s ih =>
    by_cases hd : p d
    · simp only [findByte?, hd, List.takeWhile_cons_of_pos, byteSize_cons]
      rw [← ih]
      cases findByte? (fun d => !p d) s <;> simp
    · simp [findByte?, hd]

end Finding

end Progression.Text
