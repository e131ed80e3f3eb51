import Progression.Token

/-!
# Inventories

An inventory is a finite set of tokens, kept as the list of its members in increasing order. What is added is held
next to what was held before (`Inventory.mem_add`, `Inventory.mem_addAll`).
-/

namespace Progression

/-- Puts `t` at its place in an increasing list; a token that is there already stays alone. -/
def insertToken (t : Token) : List Token → List Token
  | [] => [t]
  | u :: ts => if t.before u then t :: u :: ts else if u.before t then u :: insertToken t ts else u :: ts

theorem mem_insertToken {s t : Token} {ts : List Token} : s ∈ insertToken t ts ↔ s = t ∨ s ∈ ts := by
  induction ts with
  | nil => simp [insertToken]
  | cons u ts ih =>
    rw [insertToken]
    split
    · simp
    · split
      · simp [ih, or_left_comm]
      · next h h' => simp [Token.eq_of_not_before (Bool.not_eq_true _ ▸ h) (Bool.not_eq_true _ ▸ h')]

theorem pairwise_insertToken {t : Token} {ts : List Token} (h : ts.Pairwise (Token.before · ·)) :
    (insertToken t ts).Pairwise (Token.before · ·) := by
  induction ts with
  | nil => simp [insertToken]
  | cons u ts ih =>
    obtain ⟨hu, hts⟩ := List.pairwise_cons.1 h
    rw [insertToken]
    split
    · next htu =>
      refine List.pairwise_cons.2 ⟨fun s hs => ?_, h⟩
      rcases List.mem_cons.1 hs with rfl | hs
      · exact htu
      · exact Token.before_trans htu (hu s hs)
    · split
      · next hut =>
        refine List.pairwise_cons.2 ⟨fun s hs => ?_, ih hts⟩
        rcases mem_insertToken.1 hs with rfl | hs
        · exact hut
        · exact hu s hs
      · exact h

/-- A finite set of tokens. -/
structure Inventory where
  /-- The members in increasing order. -/
  toList : List Token
  increasing : toList.Pairwise (Token.before · ·)
  deriving DecidableEq

namespace Inventory

def empty : Inventory := ⟨[], .nil⟩

instance : EmptyCollection Inventory := ⟨empty⟩

instance : Membership Token Inventory := ⟨fun inv t => t ∈ inv.toList⟩

instance (t : Token) (inv : Inventory) : Decidable (t ∈ inv) :=
  inferInstanceAs (Decidable (t ∈ inv.toList))

/-- The inventory that also holds `t`. -/
def add (inv : Inventory) (t : Token) : Inventory :=
  ⟨insertToken t inv.toList, pairwise_insertToken inv.increasing⟩

/-- The inventory that also holds every token of a list. -/
def addAll (inv : Inventory) (ts : List Token) : Inventory :=
  ts.foldl add inv

def ofList (ts : List Token) : Inventory := (∅ : Inventory).addAll ts

def size (inv : Inventory) : Nat := inv.toList.length

def isEmpty (inv : Inventory) : Bool := inv.toList.isEmpty

@[simp] theorem mem_toList {t : Token} {inv : Inventory} : t ∈ inv.toList ↔ t ∈ inv := Iff.rfl

@[simp] theorem not_mem_empty (t : Token) : ¬ t ∈ (∅ : Inventory) := List.not_mem_nil

@[simp] theorem mem_add {s t : Token} {inv : Inventory} : s ∈ inv.add t ↔ s = t ∨ s ∈ inv :=
  mem_insertToken

@[simp] theorem mem_addAll {s : Token} {inv : Inventory} {ts : List Token} :
    s ∈ inv.addAll ts ↔ s ∈ ts ∨ s ∈ inv := by
  induction ts generalizing inv with
  | nil => simp [addAll]
  | cons t ts ih =>
    rw [addAll, List.foldl_cons, ← addAll, ih, mem_add, List.mem_cons]
    exact ⟨fun h => by rcases h with h | h | h <;> simp [h],
      fun h => by rcases h with (h | h) | h <;> simp [h]⟩

@[simp] theorem mem_ofList {s : Token} {ts : List Token} : s ∈ ofList ts ↔ s ∈ ts := by
  simp [ofList]

end Inventory

end Progression
