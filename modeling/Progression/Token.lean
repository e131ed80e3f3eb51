import Progression.Text.Blank
import Progression.Text.Hexadecimal

/-!
# Tokens

A token is something that can be held: a pickup, known by its number, or a flag, such as a recruited villager or an
unlocked portrait, known by its name. Tokens are ordered: pickups by number, then flags by name. The order is
strict and total (`Token.before_irrefl`, `Token.before_trans`, `Token.eq_of_not_before`).
-/

namespace Progression

/-- The number of a pickup. -/
abbrev ItemId := UInt32

inductive Token
  | item (id : ItemId)
  | flag (name : Name)
  deriving DecidableEq, Repr

namespace Name

/-- Whether a text comes before another one when their characters are compared by code point. -/
def charsBefore : List Char → List Char → Bool
  | _, [] => false
  | [], _ :: _ => true
  | c :: s, d :: t => c.toNat < d.toNat || (c = d && charsBefore s t)

theorem charsBefore_irrefl (s : List Char) : charsBefore s s = false := by
  induction s with
  | nil => rfl
  | cons c s ih => simp [charsBefore, ih]

theorem charsBefore_trans {s t u : List Char} (hst : charsBefore s t) (htu : charsBefore t u) :
    charsBefore s u := by
  induction s generalizing t u with
  | nil =>
    cases u with
    | nil => cases t <;> simp [charsBefore] at htu
    | cons e u => rfl
  | cons c s ih =>
    cases t with
    | nil => simp [charsBefore] at hst
    | cons d t =>
      cases u with
      | nil => simp [charsBefore] at htu
      | cons e u =>
        simp only [charsBefore, Bool.or_eq_true, Bool.and_eq_true, decide_eq_true_eq] at hst htu ⊢
        rcases hst with h | ⟨rfl, h⟩ <;> rcases htu with h' | ⟨rfl, h'⟩
        · exact .inl (Nat.lt_trans h h')
        · exact .inl h
        · exact .inl h'
        · exact .inr ⟨rfl, ih h h'⟩

theorem eq_of_not_charsBefore {s t : List Char} (hst : charsBefore s t = false)
    (hts : charsBefore t s = false) : s = t := by
  induction s generalizing t with
  | nil =>
    cases t with
    | nil => rfl
    | cons d t => simp [charsBefore] at hst
  | cons c s ih =>
    cases t with
    | nil => simp [charsBefore] at hts
    | cons d t =>
      simp only [charsBefore, Bool.or_eq_false_iff, Bool.and_eq_false_iff, decide_eq_false_iff_not] at hst hts
      have hcd : c = d := Char.toNat_inj.1 (Nat.le_antisymm (Nat.not_lt.1 hts.1) (Nat.not_lt.1 hst.1))
      subst hcd
      rw [ih (hst.2.resolve_left fun h => h rfl) (hts.2.resolve_left fun h => h rfl)]

/-- Whether a name comes before another one when their characters are compared by code point. -/
def before (a b : Name) : Bool := charsBefore a.toList b.toList

end Name

namespace Token

/-- Pickups come before flags; pickups go by number and flags by name. -/
def before : Token → Token → Bool
  | item a, item b => a.toNat < b.toNat
  | item _, flag _ => true
  | flag _, item _ => false
  | flag a, flag b => Name.before a b

theorem before_irrefl (a : Token) : a.before a = false := by
  cases a with
  | item a => simp [before]
  | flag a => exact Name.charsBefore_irrefl a.toList

theorem not_before_self (a : Token) : ¬ a.before a := by simp [before_irrefl]

theorem before_trans {a b c : Token} (hab : a.before b) (hbc : b.before c) : a.before c := by
  cases a with
  | item a =>
    cases b with
    | item b =>
      cases c with
      | item c =>
        simp only [before, decide_eq_true_eq] at *
        exact Nat.lt_trans hab hbc
      | flag c => rfl
    | flag b =>
      cases c with
      | item c => exact absurd hbc Bool.false_ne_true
      | flag c => rfl
  | flag a =>
    cases b with
    | item b => exact absurd hab Bool.false_ne_true
    | flag b =>
      cases c with
      | item c => exact absurd hbc Bool.false_ne_true
      | flag c => exact Name.charsBefore_trans hab hbc

theorem eq_of_not_before {a b : Token} (hab : a.before b = false) (hba : b.before a = false) : a = b := by
  cases a with
  | item a =>
    cases b with
    | item b =>
      simp only [before, decide_eq_false_iff_not] at hab hba
      rw [UInt32.toNat_inj.1 (Nat.le_antisymm (Nat.not_lt.1 hba) (Nat.not_lt.1 hab))]
    | flag b => exact absurd hab.symm Bool.false_ne_true
  | flag a =>
    cases b with
    | item b => exact absurd hba.symm Bool.false_ne_true
    | flag b => rw [String.toList_inj.1 (Name.eq_of_not_charsBefore hab hba)]

/-- A pickup shows as at least three digits of base sixteen, a flag as its name. -/
def display : Token → String
  | item id => String.ofList (Hexadecimal.digits 3 id.toNat)
  | flag name => name

end Token

end Progression
