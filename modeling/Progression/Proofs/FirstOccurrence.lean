import Mathlib.Data.List.Basic
import Mathlib.Data.List.Induction
import Mathlib.Data.List.Sort

/-!
# First occurrences

Taking each element of a list once keeps the elements in the order in which they first come, also where the elements
are read off another list. The order is said by first positions, so it also says that nothing comes twice.
-/

namespace Progression

section

variable {α β : Type} [DecidableEq α]

theorem nodup_of_pairwise_idxOf {l : List β} {l' : List α} {g : β → α}
    (h : l.Pairwise fun b c => l'.idxOf (g b) < l'.idxOf (g c)) : l.Nodup :=
  h.imp fun hlt heq => by
    rw [heq] at hlt
    exact Nat.lt_irrefl _ hlt

/-- Lists that both go by first positions in a third one are equal if they have the same members. -/
theorem eq_of_pairwise_idxOf {l l₁ l₂ : List α} (h₁ : l₁.Pairwise fun a b => l.idxOf a < l.idxOf b)
    (h₂ : l₂.Pairwise fun a b => l.idxOf a < l.idxOf b) (h : ∀ a, a ∈ l₁ ↔ a ∈ l₂) : l₁ = l₂ := by
  have hirrefl : Std.Irrefl fun a b : α => l.idxOf a < l.idxOf b := ⟨fun a => Nat.lt_irrefl _⟩
  have hantisymm : Std.Antisymm fun a b : α => l.idxOf a < l.idxOf b :=
    ⟨fun a b hab hba => absurd (Nat.lt_trans hab hba) (Nat.lt_irrefl _)⟩
  exact h₁.eq_of_mem_iff h₂ h

variable [DecidableEq β]

theorem eraseDups_concat (l : List β) (b : β) :
    (l ++ [b]).eraseDups = if b ∈ l then l.eraseDups else l.eraseDups ++ [b] := by
  rw [List.eraseDups_append]
  by_cases h : b ∈ l <;> simp [List.removeAll, List.eraseDups_cons, h]

theorem eraseDups_eq_self {l : List β} (h : l.Nodup) : l.eraseDups = l := by
  induction l using List.reverseRecOn with
  | nil => rfl
  | append_singleton l b ih =>
    obtain ⟨hl, -, hdisjoint⟩ := List.nodup_append.1 h
    have hb : b ∉ l := fun hmem => hdisjoint b hmem b List.mem_cons_self rfl
    rw [eraseDups_concat, if_neg hb, ih hl]

/-- What comes first and nowhere before is kept in its place. -/
theorem eraseDups_append_cons {l : List β} {b : β} (hb : b ∉ l) (l' : List β) :
    ∃ rest, (l ++ b :: l').eraseDups = l.eraseDups ++ b :: rest := by
  have hrest : (b :: l').removeAll l = b :: l'.removeAll l := by simp [List.cons_removeAll, hb]
  rw [List.eraseDups_append, hrest, List.eraseDups_cons]
  exact ⟨_, rfl⟩

/-- What `f` reads off a list comes in the order of the elements that it is read off, where `g` says which these
are. -/
theorem pairwise_eraseDups_filterMap {f : α → Option β} {g : β → α} (hg : ∀ a b, f a = some b → a = g b) (l : List α) :
    (l.filterMap f).eraseDups.Pairwise fun b c => l.idxOf (g b) < l.idxOf (g c) := by
  have hmem : ∀ {m : List α} {b : β}, b ∈ m.filterMap f → g b ∈ m := fun hb => by
    obtain ⟨a, ha, hab⟩ := List.mem_filterMap.1 hb
    rwa [← hg a _ hab]
  induction l using List.reverseRecOn with
  | nil => exact List.Pairwise.nil
  | append_singleton l a ih =>
    have hold : (l.filterMap f).eraseDups.Pairwise fun b c => (l ++ [a]).idxOf (g b) < (l ++ [a]).idxOf (g c) := by
      refine ih.imp_of_mem fun hb hc hlt => ?_
      rw [List.idxOf_append_of_mem (hmem (List.mem_eraseDups.1 hb)),
        List.idxOf_append_of_mem (hmem (List.mem_eraseDups.1 hc))]
      exact hlt
    rw [List.filterMap_append]
    cases hfa : f a with
    | none => simpa [hfa] using hold
    | some c =>
      show ((l.filterMap f ++ [a].filterMap f).eraseDups).Pairwise _
      rw [List.filterMap_cons_some hfa, List.filterMap_nil, eraseDups_concat]
      split
      · exact hold
      · next hc =>
        -- the element is new to the list, or `f` had read `c` off it before
        have hnew : g c ∉ l := fun h => hc (List.mem_filterMap.2 ⟨g c, h, by rw [← hg a c hfa, hfa]⟩)
        refine List.pairwise_append.2 ⟨hold, List.pairwise_singleton _ _, fun b hb d hd => ?_⟩
        have hbl : g b ∈ l := hmem (List.mem_eraseDups.1 hb)
        rw [List.mem_singleton.1 hd, List.idxOf_append_of_mem hbl, List.idxOf_append_of_notMem hnew]
        exact Nat.lt_of_lt_of_le (List.idxOf_lt_length_of_mem hbl) (Nat.le_add_right _ _)

theorem pairwise_eraseDups (l : List β) : l.eraseDups.Pairwise fun b c => l.idxOf b < l.idxOf c := by
  have h := pairwise_eraseDups_filterMap (f := some) (g := id) (fun _ _ => Option.some.inj) l
  rwa [List.filterMap_some] at h

end

end Progression
