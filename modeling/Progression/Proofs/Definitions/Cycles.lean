import Mathlib.Logic.Relation
import Progression.World.Basic

/-!
# Cycles of references

A name that is bound refers to the names that its requirement mentions. A requirement reaches what it mentions, what
those names refer to, and so on. It is acyclic if it reaches no name that leads back to itself; the definitions may
well have cycles elsewhere.
-/

namespace Progression

namespace Definitions

variable (defs : Definitions)

/-- The name `n` is bound to a requirement that mentions `k`. -/
def Refers (n k : Name) : Prop := ∃ r, defs.get? n = some r ∧ k ∈ r.references

/-- The requirement mentions `k`, or a name that leads to `k`. -/
def Reaches (r : Requirement) (k : Name) : Prop :=
  ∃ n ∈ r.references, Relation.ReflTransGen defs.Refers n k

/-- No cycle of references is reachable from the requirement. -/
def Acyclic (r : Requirement) : Prop := ∀ k, defs.Reaches r k → ¬ Relation.TransGen defs.Refers k k

/-- No cycle of references passes through two names. -/
def OnlySelfLoops : Prop :=
  ∀ n k, Relation.TransGen defs.Refers n k → Relation.TransGen defs.Refers k n → n = k

/-- No cycle of references that the name leads to passes through two names. -/
def Untangled (n : Name) : Prop :=
  ∀ i j, Relation.ReflTransGen defs.Refers n i → Relation.TransGen defs.Refers i j →
    Relation.TransGen defs.Refers j i → i = j

variable {defs}

theorem Untangled.of_refers {n k : Name} (h : defs.Untangled n) (hnk : defs.Refers n k) : defs.Untangled k :=
  fun i j hki => h i j (.head hnk hki)

/-- A name that an untangled name refers to leads back to it only if it is that name. -/
theorem Untangled.eq_of_refers {n k : Name} (h : defs.Untangled n) (hnk : defs.Refers n k)
    (hkn : Relation.TransGen defs.Refers k n) : k = n :=
  (h n k .refl (.single hnk) hkn).symm

theorem reaches_of_mem {r : Requirement} {n : Name} (h : n ∈ r.references) : defs.Reaches r n :=
  ⟨n, h, .refl⟩

theorem Reaches.tail {r : Requirement} {n k : Name} (hn : defs.Reaches r n) (hk : defs.Refers n k) :
    defs.Reaches r k := by
  obtain ⟨m, hm, hmn⟩ := hn
  exact ⟨m, hm, hmn.tail hk⟩

/-- A name that is bound to an acyclic requirement reaches no cycle either: it would go on through a name that the
requirement mentions. -/
theorem Acyclic.reference {r : Requirement} {n : Name} (h : defs.Acyclic r) (hget : defs.get? n = some r) :
    defs.Acyclic (.atom (.reference n)) := by
  have hmentions : ∀ i, defs.Refers n i → i ∈ r.references := by
    rintro i ⟨r', hr', hi⟩
    obtain rfl := Option.some.inj (hget.symm.trans hr')
    exact hi
  rintro k ⟨j, hj, hjk⟩ hcycle
  obtain rfl : j = n := List.mem_singleton.1 hj
  rcases Relation.ReflTransGen.cases_head hjk with rfl | ⟨i, hji, hik⟩
  · obtain ⟨i, hji, hij⟩ := Relation.TransGen.head'_iff.1 hcycle
    exact h j ⟨i, hmentions i hji, hij⟩ hcycle
  · exact h k ⟨i, hmentions i hji, hik⟩ hcycle

/-- Where references of entries in `A` stay in `A` and lead to lower ranks, or stay, so do references over several
steps. -/
theorem rank_of_transGen {A : Name → Prop} {rank : Name → Nat} {n k : Name}
    (h : ∀ e ∈ defs.entries, A e.1 → ∀ j ∈ e.2.references, A j ∧ (j = e.1 ∨ rank j < rank e.1)) (hn : A n)
    (hnk : Relation.TransGen defs.Refers n k) : A k ∧ (k = n ∨ rank k < rank n) := by
  have hrefers : ∀ i j, A i → defs.Refers i j → A j ∧ (j = i ∨ rank j < rank i) := by
    rintro i j hi ⟨r, hr, hj⟩
    exact h (i, r) (Table.get?_eq_some_iff.1 hr) hi j hj
  induction hnk with
  | single hnk => exact hrefers _ _ hn hnk
  | tail _ hjk ih =>
    obtain ⟨hj, ih⟩ := ih
    obtain ⟨hk, rfl | hlt⟩ := hrefers _ _ hj hjk
    · exact ⟨hk, ih⟩
    · refine ⟨hk, .inr ?_⟩
      obtain rfl | hlt' := ih
      · exact hlt
      · exact Nat.lt_trans hlt hlt'

/-- Definitions whose references only lead from higher to lower ranks have no cycle at all. -/
theorem acyclic_of_rank (rank : Name → Nat)
    (h : ∀ e ∈ defs.entries, ∀ k ∈ e.2.references, rank k < rank e.1) (r : Requirement) : defs.Acyclic r := by
  intro k _ hcycle
  have hlt : Relation.TransGen (· > ·) (rank k) (rank k) := hcycle.lift rank fun n j ⟨r, hr, hj⟩ =>
    h (n, r) (Table.get?_eq_some_iff.1 hr) j hj
  have htrans : IsTrans Nat (· > ·) := ⟨fun _ _ _ h h' => Nat.lt_trans h' h⟩
  rw [Relation.transGen_eq_self] at hlt
  exact Nat.lt_irrefl _ hlt

/-- Names whose references lead to such names again, and to lower ranks or to themselves, are untangled. -/
theorem untangled_of_rank {A : Name → Prop} (rank : Name → Nat)
    (h : ∀ e ∈ defs.entries, A e.1 → ∀ k ∈ e.2.references, A k ∧ (k = e.1 ∨ rank k < rank e.1)) {n : Name}
    (hn : A n) : defs.Untangled n := by
  intro i j hni hij hji
  have hi : A i := by
    obtain rfl | hni := Relation.reflTransGen_iff_eq_or_transGen.1 hni
    · exact hn
    · exact (rank_of_transGen h hn hni).1
  obtain ⟨hj, rfl | hlt⟩ := rank_of_transGen h hi hij
  · rfl
  · obtain ⟨-, rfl | hlt'⟩ := rank_of_transGen h hj hji
    · rfl
    · exact absurd (Nat.lt_trans hlt hlt') (Nat.lt_irrefl _)

/-- Definitions whose references lead to lower ranks or stay have no cycles but references of names to themselves. -/
theorem onlySelfLoops_of_rank (rank : Name → Nat)
    (h : ∀ e ∈ defs.entries, ∀ k ∈ e.2.references, k = e.1 ∨ rank k < rank e.1) : defs.OnlySelfLoops := by
  intro n k hnk hkn
  have huntangled : defs.Untangled n :=
    untangled_of_rank (A := fun _ => True) rank (fun e he _ j hj => ⟨trivial, h e he j hj⟩) trivial
  exact huntangled n k .refl hnk hkn

end Definitions

end Progression
