import Mathlib.Data.List.Basic
import Mathlib.Data.Nat.Digits.Defs
import Mathlib.Tactic.IntervalCases
import Progression.Text.Hexadecimal

/-!
# Digits and their value

Digits of base sixteen have a value, which does not depend on their case (`value?_map_toUpper`) or on zeros before them
(`value?_zeros_append`). Below the bound, reading digits is taking their value (`readDigits_eq_ok`), and the value of
the digits that a number is written with is the number (`value?_digits`).
-/

namespace Progression.Hexadecimal

/-- The number that digits write after a first part of value `acc`; nothing if a character is no digit. -/
def valueAfter? (acc : Nat) (s : List Char) : Option Nat :=
  s.foldlM (fun n c => (digitValue? c).map (n * 16 + ·)) acc

/-- The number that digits write. -/
def value? (s : List Char) : Option Nat := valueAfter? 0 s

variable {s t : List Char} {c : Char} {acc bound k n width : Nat}

/-! ## Digits -/

/-- A property of the twenty-two characters that are digits is one of every digit. -/
theorem of_isDigit {P : Char → Prop} [DecidablePred P] (hP : "0123456789abcdefABCDEF".toList.all (P ·))
    (h : isDigit c) : P c := by
  have hbounds : (48 ≤ c.toNat ∧ c.toNat ≤ 57) ∨ (97 ≤ c.toNat ∧ c.toNat ≤ 102) ∨ (65 ≤ c.toNat ∧ c.toNat ≤ 70) := by
    unfold isDigit digitValue? at h
    simp only [Char.le_def, UInt32.le_iff_toNat_le] at h
    split at h
    · next hc => exact .inl hc
    · split at h
      · next hc => exact .inr (.inl hc)
      · split at h
        · next hc => exact .inr (.inr hc)
        · cases h
  refine of_decide_eq_true (List.all_eq_true.1 hP c ?_)
  rw [← Char.ofNat_toNat c]
  generalize c.toNat = m at hbounds
  rcases hbounds with ⟨hlow, hhigh⟩ | ⟨hlow, hhigh⟩ | ⟨hlow, hhigh⟩ <;> interval_cases m <;> decide

/-- Only small letters have another upper case. -/
theorem toUpper_eq_self (h : ¬ (97 ≤ c.toNat ∧ c.toNat ≤ 122)) : c.toUpper = c :=
  dif_neg (by simpa [UInt32.le_iff_toNat_le] using h)

/-- A property of the twenty-six small letters is one of every character between them. -/
theorem of_smallLetter {P : Char → Prop} [DecidablePred P] (hP : "abcdefghijklmnopqrstuvwxyz".toList.all (P ·))
    (h : 97 ≤ c.toNat ∧ c.toNat ≤ 122) : P c := by
  refine of_decide_eq_true (List.all_eq_true.1 hP c ?_)
  rw [← Char.ofNat_toNat c]
  obtain ⟨hlow, hhigh⟩ := h
  generalize c.toNat = m at hlow hhigh
  interval_cases m <;> decide

theorem digitValue?_toUpper (c : Char) : digitValue? c.toUpper = digitValue? c := by
  by_cases h : 97 ≤ c.toNat ∧ c.toNat ≤ 122
  · exact of_smallLetter (P := fun c => digitValue? c.toUpper = digitValue? c) (by decide) h
  · rw [toUpper_eq_self h]

theorem digitValue?_digitChar (h : n < 16) : digitValue? n.digitChar = some n := by
  interval_cases n <;> rfl

/-! ## Values -/

theorem valueAfter?_cons (acc : Nat) (c : Char) (s : List Char) :
    valueAfter? acc (c :: s) = (digitValue? c).bind fun d => valueAfter? (acc * 16 + d) s := by
  rw [valueAfter?, List.foldlM_cons]
  cases digitValue? c <;> rfl

theorem valueAfter?_append (acc : Nat) (s t : List Char) :
    valueAfter? acc (s ++ t) = (valueAfter? acc s).bind fun n => valueAfter? n t :=
  List.foldlM_append

/-- The value of digits is the same in either case. -/
theorem valueAfter?_map_toUpper (acc : Nat) (s : List Char) :
    valueAfter? acc (s.map Char.toUpper) = valueAfter? acc s := by
  simp only [valueAfter?, List.foldlM_map, digitValue?_toUpper]

theorem value?_zeros_append (k : Nat) (s : List Char) : value? (List.replicate k '0' ++ s) = value? s := by
  have hzeros : value? (List.replicate k '0') = some 0 := by
    induction k with
    | zero => rfl
    | succ k ih => exact (valueAfter?_cons 0 '0' _).trans ih
  unfold value? at hzeros ⊢
  rw [valueAfter?_append, hzeros, Option.bind_some]

theorem value?_toDigits (n : Nat) : value? (Nat.toDigits 16 n) = some n := by
  induction n using Nat.strongRecOn with
  | ind n ih =>
    rw [Nat.toDigits_eq_if (by decide)]
    split
    · next hlt => simp [value?, valueAfter?, digitValue?_digitChar hlt]
    · next hge =>
      have hdigit := digitValue?_digitChar (Nat.mod_lt n (by decide : 0 < 16))
      have hrest := ih (n / 16) (by omega)
      unfold value? at hrest ⊢
      rw [valueAfter?_append, hrest, Option.bind_some, valueAfter?_cons, hdigit, Option.bind_some]
      exact congrArg some (Nat.div_add_mod' n 16)

/-- The digits that a number is written with have the number as their value. -/
theorem value?_digits (width n : Nat) : value? (digits width n) = some n := by
  rw [digits, List.leftpad, value?_zeros_append, value?, valueAfter?_map_toUpper]
  exact value?_toDigits n

theorem length_digits (hwidth : 0 < width) (h : n < 16 ^ width) : (digits width n).length = width := by
  rw [digits, List.length_leftpad, List.length_map]
  exact max_eq_left (Nat.toDigits_length 16 n width hwidth h)

theorem le_length_digits (width n : Nat) : width ≤ (digits width n).length := by
  rw [digits, List.length_leftpad]
  exact le_max_left width _

theorem isDigit_of_valueAfter? (h : valueAfter? acc s = some n) : ∀ c ∈ s, isDigit c := by
  induction s generalizing acc with
  | nil => simp
  | cons c s ih =>
    rw [valueAfter?_cons, Option.bind_eq_some_iff] at h
    obtain ⟨d, hd, h⟩ := h
    refine List.forall_mem_cons.2 ⟨?_, ih h⟩
    rw [isDigit, hd, Option.isSome_some]

/-- All digits have a value. -/
theorem exists_valueAfter? (h : ∀ c ∈ s, isDigit c) (acc : Nat) : ∃ n, valueAfter? acc s = some n := by
  induction s generalizing acc with
  | nil => exact ⟨acc, rfl⟩
  | cons c s ih =>
    obtain ⟨hc, hs⟩ := List.forall_mem_cons.1 h
    obtain ⟨d, hd⟩ := Option.isSome_iff_exists.1 hc
    obtain ⟨n, hn⟩ := ih hs (acc * 16 + d)
    refine ⟨n, ?_⟩
    rw [valueAfter?_cons, hd, Option.bind_some, hn]

theorem isDigit_of_mem_digits (width n : Nat) : ∀ c ∈ digits width n, isDigit c :=
  isDigit_of_valueAfter? (value?_digits width n)

theorem digits_ne_nil (hwidth : 0 < width) (n : Nat) : digits width n ≠ [] := by
  have hlength : width ≤ (digits width n).length := le_length_digits width n
  apply List.ne_nil_of_length_pos
  omega

/-! ## Reading -/

theorem le_of_valueAfter? (h : valueAfter? acc s = some n) : acc ≤ n := by
  induction s generalizing acc with
  | nil => exact Nat.le_of_eq (Option.some.inj h)
  | cons c s ih =>
    rw [valueAfter?_cons, Option.bind_eq_some_iff] at h
    obtain ⟨d, -, h⟩ := h
    have hle := ih h
    omega

/-- What is read is the value of the digits, where that is below the bound. -/
theorem readDigits_eq_ok (hacc : acc < bound) :
    readDigits bound acc s = .ok n ↔ valueAfter? acc s = some n ∧ n < bound := by
  induction s generalizing acc with
  | nil =>
    constructor
    · intro h
      cases h
      exact ⟨rfl, hacc⟩
    · rintro ⟨h, -⟩
      cases h
      rfl
  | cons c s ih =>
    rw [readDigits, valueAfter?_cons]
    cases digitValue? c with
    | none => simp
    | some d =>
      simp only [Option.bind_some]
      by_cases hlt : acc * 16 + d < bound
      · rw [if_pos hlt, ih hlt]
      · rw [if_neg hlt]
        constructor
        · intro h
          cases h
        · rintro ⟨h, hn⟩
          exact absurd (Nat.lt_of_le_of_lt (le_of_valueAfter? h) hn) hlt

/-- Without a sign there are only digits to read. -/
theorem read_eq_readDigits (hs : s ≠ []) (hplus : '+' ∉ s) : read bound s = readDigits bound 0 s := by
  unfold read
  split
  · exact absurd rfl hs
  · exact absurd List.mem_cons_self hplus
  · exact absurd List.mem_cons_self hplus
  · rfl

/-- Digits are read as their value. -/
theorem read_of_value? (h : value? s = some n) (hs : s ≠ []) (hn : n < bound) : read bound s = .ok n := by
  have hplus : '+' ∉ s := fun hmem => absurd (isDigit_of_valueAfter? h '+' hmem) (by decide)
  rw [read_eq_readDigits hs hplus]
  exact (readDigits_eq_ok (Nat.zero_lt_of_lt hn)).2 ⟨h, hn⟩

/-- Digits are read only as their value, and only below the bound. -/
theorem read_eq_ok (hbound : 0 < bound) (hs : s ≠ []) (h : ∀ c ∈ s, isDigit c) :
    read bound s = .ok n ↔ value? s = some n ∧ n < bound := by
  have hplus : '+' ∉ s := fun hmem => absurd (h '+' hmem) (by decide)
  rw [read_eq_readDigits hs hplus, readDigits_eq_ok hbound, value?]

end Progression.Hexadecimal
