import Progression.Text.Pieces

/-!
# Blanks and names

A blank is a character of the Unicode property `White_Space`. A name is made of a text by `Name.ofText`: blanks
around it fall away and each blank inside becomes an underscore, so a name holds no blank (`Name.ofText_no_blank`).
-/

namespace Progression

namespace Text

/-- Whether a character has the Unicode property `White_Space`. -/
def isBlank (c : Char) : Bool :=
  let n := c.toNat
  (0x9 ≤ n && n ≤ 0xD) || n == 0x20 || n == 0x85 || n == 0xA0 || n == 0x1680 || (0x2000 ≤ n && n ≤ 0x200A) ||
    n == 0x2028 || n == 0x2029 || n == 0x202F || n == 0x205F || n == 0x3000

/-- A text without the blanks at its two ends. -/
def trim (s : List Char) : List Char :=
  dropTrailing isBlank (s.dropWhile isBlank)

/-- A text without the blanks at its two ends and with an underscore for each blank inside. -/
def normalize (s : List Char) : List Char :=
  (trim s).map fun c => if isBlank c then '_' else c

theorem not_isBlank_of_mem_normalize {s : List Char} {c : Char} (h : c ∈ normalize s) :
    isBlank c = false := by
  simp only [normalize, List.mem_map] at h
  obtain ⟨d, -, rfl⟩ := h
  by_cases hd : isBlank d
  · rw [if_pos hd]; decide
  · rw [if_neg hd]; simpa using hd

end Text

/-- What definitions, references and flags are known by. -/
abbrev Name := String

/-- The name that a text stands for. -/
def Name.ofText (s : String) : Name :=
  String.ofList (Text.normalize s.toList)

theorem Name.ofText_no_blank {s : String} {c : Char} (h : c ∈ (Name.ofText s).toList) :
    Text.isBlank c = false := by
  rw [Name.ofText, String.toList_ofList] at h
  exact Text.not_isBlank_of_mem_normalize h

end Progression
