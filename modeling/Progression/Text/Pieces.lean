/-!
# Cutting a text into pieces

`pieces sep s` cuts `s` at every `sep` and forgets the empty pieces at the end, so a separator that closes a text
is the same as none. `cutAt sep s` cuts once, at the first `sep`.
-/

namespace Progression.Text

/-- What is left of a list when its longest end of elements with `p` is taken away. -/
def dropTrailing {α : Type} (p : α → Bool) (l : List α) : List α :=
  (l.reverse.dropWhile p).reverse

/-- The pieces of `s` between the separators, without the empty ones at the end. -/
def pieces (sep : Char) (s : List Char) : List (List Char) :=
  dropTrailing List.isEmpty (s.splitOn sep)

/-- What stands before and after the first `sep`, if there is one. -/
def cutAt (sep : Char) : List Char → Option (List Char × List Char)
  | [] => none
  | c :: s => if c = sep then some ([], s) else (cutAt sep s).map fun p => (c :: p.1, p.2)

section

variable {α : Type} {p : α → Bool}

@[simp] theorem dropTrailing_nil : dropTrailing p [] = [] := rfl

theorem dropTrailing_concat (l : List α) (a : α) :
    dropTrailing p (l ++ [a]) = if p a then dropTrailing p l else l ++ [a] := by
  by_cases h : p a <;> simp [dropTrailing, h]

/-- The list is what is kept followed by elements with `p`. -/
theorem dropTrailing_append_takeWhile (l : List α) :
    dropTrailing p l ++ (l.reverse.takeWhile p).reverse = l := by
  rw [dropTrailing, ← List.reverse_append, List.takeWhile_append_dropWhile, List.reverse_reverse]

end

theorem cutAt_eq_none {sep : Char} {s : List Char} : cutAt sep s = none ↔ sep ∉ s := by
  induction s with
  | nil => simp [cutAt]
  | cons c s ih =>
    by_cases h : c = sep
    · simp [cutAt, h]
    · simp [cutAt, h, ih, Ne.symm h]

theorem append_of_cutAt {sep : Char} {s a b : List Char} (h : cutAt sep s = some (a, b)) :
    s = a ++ sep :: b ∧ sep ∉ a := by
  induction s generalizing a with
  | nil => simp [cutAt] at h
  | cons c s ih =>
    by_cases hc : c = sep
    · simp only [cutAt, hc, if_true, Option.some.injEq, Prod.mk.injEq] at h
      obtain ⟨rfl, rfl⟩ := h
      simp [hc]
    · simp only [cutAt, hc, if_false, Option.map_eq_some_iff, Prod.mk.injEq] at h
      obtain ⟨⟨a', b'⟩, hs, rfl, rfl⟩ := h
      obtain ⟨hs', ha⟩ := ih hs
      simp [hs', ha, Ne.symm hc]

end Progression.Text
