import Mathlib.Data.EReal.Basic
import Mathlib.Data.EReal.Operations
import Mathlib.Data.List.Induction
import Mathlib.Algebra.Order.Field.Power
import Mathlib.Order.Monotone.Basic
import Mathlib.Tactic.NormNum
import Progression.Numeric.Single

/-!
# The order of floating-point numbers

A number that is no NaN stands for an extended real (`Single.value`). Its magnitude is so many least steps of the
format, and more the greater its rank is (`Binary.Format.steps_strictMono`), up to infinity. So ranks compare as the
magnitudes do (`Binary.Format.magnitude_le_iff`), and the keys of numbers as the numbers (`Single.value_le_iff`).
The least of some numbers, which is gathered from infinity on, is equal to those of them that none is below
(`Single.equals_least_iff`).
-/

namespace Progression

namespace Binary.Format

variable (f : Format)

/-- How often the least step of a format goes into a finite magnitude. -/
def steps (rank : Nat) : Nat := f.significand rank * 2 ^ (rank / f.binade - 1)

/-- The magnitude with a rank. -/
noncomputable def magnitude (rank : Nat) : EReal :=
  if rank = f.infinity then ⊤ else ((f.significand rank * 2 ^ f.exponent rank : ℝ) : EReal)

variable {f}

theorem binade_pos : 0 < f.binade := Nat.two_pow_pos (f.precision - 1)

/-- The significand has a leading one from the second binade on. -/
theorem significand_eq (rank : Nat) :
    f.significand rank = rank % f.binade + if rank / f.binade = 0 then 0 else f.binade := by
  have hfirst : rank / f.binade = 0 ↔ rank < f.binade := Nat.div_eq_zero_iff_lt binade_pos
  unfold significand
  by_cases h : rank < f.binade
  · rw [if_pos h, if_pos (hfirst.2 h), Nat.mod_eq_of_lt h, Nat.add_zero]
  · rw [if_neg h, if_neg (mt hfirst.1 h)]

/-- Within a binade the next magnitude is one step of this binade away; the step is twice as great in the next one. -/
theorem steps_lt_succ (rank : Nat) : f.steps rank < f.steps (rank + 1) := by
  have hb : 0 < f.binade := binade_pos
  have hmod : rank % f.binade < f.binade := Nat.mod_lt rank hb
  have hrank : f.binade * (rank / f.binade) + rank % f.binade = rank := Nat.div_add_mod rank f.binade
  unfold steps
  rw [significand_eq, significand_eq]
  generalize rank / f.binade = e at hrank ⊢
  generalize rank % f.binade = m at hmod hrank ⊢
  by_cases hlast : m + 1 = f.binade
  · have hdiv : (rank + 1) / f.binade = e + 1 := by
      rw [← hrank, Nat.add_assoc, hlast, ← Nat.mul_succ, Nat.mul_div_cancel_left _ hb]
    have hmod' : (rank + 1) % f.binade = 0 := by
      rw [← hrank, Nat.add_assoc, hlast, ← Nat.mul_succ, Nat.mul_mod_right]
    rw [hdiv, hmod', if_neg (Nat.succ_ne_zero e), Nat.zero_add, Nat.add_sub_cancel]
    cases e with
    | zero =>
      show (m + 0) * 1 < f.binade * 1
      omega
    | succ e =>
      rw [if_neg (Nat.succ_ne_zero e), Nat.add_sub_cancel, Nat.pow_succ', ← Nat.mul_assoc]
      exact Nat.mul_lt_mul_of_pos_right (by omega) (Nat.two_pow_pos e)
  · have hlt : m + 1 < f.binade := by omega
    have hdiv : (rank + 1) / f.binade = e := by
      rw [← hrank, Nat.add_assoc, Nat.mul_add_div hb, Nat.div_eq_of_lt hlt, Nat.add_zero]
    have hmod' : (rank + 1) % f.binade = m + 1 := by
      rw [← hrank, Nat.add_assoc, Nat.mul_add_mod, Nat.mod_eq_of_lt hlt]
    rw [hdiv, hmod']
    exact Nat.mul_lt_mul_of_pos_right (by omega) (Nat.two_pow_pos _)

theorem steps_strictMono : StrictMono f.steps := strictMono_nat_of_lt_succ steps_lt_succ

theorem magnitude_infinity : f.magnitude f.infinity = ⊤ := if_pos rfl

theorem magnitude_of_ne {rank : Nat} (h : rank ≠ f.infinity) :
    f.magnitude rank = ((f.steps rank * 2 ^ f.minExponent : ℝ) : EReal) := by
  have hreal : (f.significand rank * 2 ^ f.exponent rank : ℝ) = f.steps rank * 2 ^ f.minExponent := by
    unfold steps exponent
    rw [zpow_add₀ two_ne_zero, zpow_natCast]
    push_cast
    ring
  unfold magnitude
  rw [if_neg h, hreal]

theorem magnitude_le_iff {x y : Nat} (hx : x ≤ f.infinity) (hy : y ≤ f.infinity) :
    f.magnitude x ≤ f.magnitude y ↔ x ≤ y := by
  by_cases hytop : y = f.infinity
  · subst hytop
    rw [magnitude_infinity]
    exact iff_of_true le_top hx
  · rw [magnitude_of_ne hytop]
    by_cases hxtop : x = f.infinity
    · subst hxtop
      rw [magnitude_infinity, top_le_iff]
      exact iff_of_false (EReal.coe_ne_top _) (by omega)
    · have hstep : (0 : ℝ) < 2 ^ f.minExponent := zpow_pos two_pos _
      rw [magnitude_of_ne hxtop, EReal.coe_le_coe_iff, mul_le_mul_iff_left₀ hstep, Nat.cast_le]
      exact steps_strictMono.le_iff_le

theorem magnitude_zero (h : f.infinity ≠ 0) : f.magnitude 0 = 0 := by
  rw [magnitude_of_ne h.symm]
  simp [steps, significand, binade_pos]

end Binary.Format

namespace Single

open Binary

/-- The extended real that a number stands for. -/
noncomputable def value (x : Single) : EReal :=
  if x.negative then -Format.single.magnitude x.rank else Format.single.magnitude x.rank

theorem rank_le_infinity {x : Single} (h : x.isNaN = false) : x.rank ≤ Format.single.infinity :=
  Nat.le_of_not_lt (of_decide_eq_false h)

theorem magnitude_le_zero_iff {rank : Nat} (h : rank ≤ Format.single.infinity) :
    Format.single.magnitude rank ≤ 0 ↔ rank = 0 := by
  rw [← Format.magnitude_zero (f := .single) (by decide), Format.magnitude_le_iff h (Nat.zero_le _), Nat.le_zero]

theorem magnitude_nonneg {rank : Nat} (h : rank ≤ Format.single.infinity) : 0 ≤ Format.single.magnitude rank := by
  rw [← Format.magnitude_zero (f := .single) (by decide), Format.magnitude_le_iff (Nat.zero_le _) h]
  exact Nat.zero_le rank

/-- Numbers that are no NaN compare as their keys do. -/
theorem value_le_iff {x y : Single} (hx : x.isNaN = false) (hy : y.isNaN = false) :
    x.value ≤ y.value ↔ x.key ≤ y.key := by
  have hxrank := rank_le_infinity hx
  have hyrank := rank_le_infinity hy
  unfold value key
  by_cases hxneg : x.negative = true <;> by_cases hyneg : y.negative = true
  · rw [if_pos hxneg, if_pos hyneg, if_pos hxneg, if_pos hyneg, EReal.neg_le_neg_iff,
      Format.magnitude_le_iff hyrank hxrank]
    omega
  · rw [if_pos hxneg, if_neg hyneg, if_pos hxneg, if_neg hyneg]
    have hneg : -Format.single.magnitude x.rank ≤ 0 := EReal.neg_le_zero.2 (magnitude_nonneg hxrank)
    exact iff_of_true (hneg.trans (magnitude_nonneg hyrank)) (by omega)
  · -- a number without a sign is at most one with a sign only if both are zero
    rw [if_neg hxneg, if_pos hyneg, if_neg hxneg, if_pos hyneg]
    constructor
    · intro h
      have hxzero := (magnitude_le_zero_iff hxrank).1 (h.trans (EReal.neg_le_zero.2 (magnitude_nonneg hyrank)))
      have hyzero := (magnitude_le_zero_iff hyrank).1 (EReal.neg_nonneg.1 ((magnitude_nonneg hxrank).trans h))
      omega
    · intro h
      have hxzero : x.rank = 0 := by omega
      have hyzero : y.rank = 0 := by omega
      rw [hxzero, hyzero, Format.magnitude_zero (by decide), neg_zero]
  · rw [if_neg hxneg, if_neg hyneg, if_neg hxneg, if_neg hyneg, Format.magnitude_le_iff hxrank hyrank]
    omega

/-! ## The least number -/

theorem infinity_isNaN : infinity.isNaN = false := by decide

theorem key_le_infinity {x : Single} (h : x.isNaN = false) : x.key ≤ infinity.key := by
  have hrank := rank_le_infinity h
  have hinfinity : infinity.key = Binary.Format.single.infinity := by decide
  rw [hinfinity, key]
  split <;> omega

theorem least_of_not_isNaN {x y : Single} (hx : x.isNaN = false) (hy : y.isNaN = false) :
    x.least y = if y.key < x.key then y else x := by
  unfold least
  rw [if_neg (by simp [hx]), if_neg (by simp [hy])]

/-- The least of some numbers is one of them, and none is below it. -/
theorem foldl_least {l : List Single} {x : Single} (h : ∀ y ∈ x :: l, y.isNaN = false) :
    l.foldl least x ∈ x :: l ∧ ∀ y ∈ x :: l, (l.foldl least x).key ≤ y.key := by
  induction l using List.reverseRecOn with
  | nil => exact ⟨List.mem_cons_self, fun y hy => by rw [List.mem_singleton.1 hy]; exact Int.le_refl _⟩
  | append_singleton l z ih =>
    rw [← List.cons_append, List.forall_mem_append, List.forall_mem_singleton] at h
    obtain ⟨hl, hz⟩ := h
    obtain ⟨hmem, hle⟩ := ih hl
    rw [List.foldl_concat, least_of_not_isNaN (hl _ hmem) hz, ← List.cons_append]
    split
    · next hlt =>
      refine ⟨List.mem_append_right _ (List.mem_singleton_self z), fun y hy => ?_⟩
      rcases List.mem_append.1 hy with hy | hy
      · exact Int.le_trans (Int.le_of_lt hlt) (hle y hy)
      · rw [List.mem_singleton.1 hy]
    · next hlt =>
      refine ⟨List.mem_append_left _ hmem, fun y hy => ?_⟩
      rcases List.mem_append.1 hy with hy | hy
      · exact hle y hy
      · rw [List.mem_singleton.1 hy]
        exact Int.not_lt.1 hlt

/-- A number equals the least of some numbers, and infinity, if none of them is below it. -/
theorem equals_least_iff {l : List Single} {x : Single} (h : ∀ y ∈ l, y.isNaN = false) (hx : x ∈ l) :
    x.equals (l.foldl least infinity) = true ↔ ∀ y ∈ l, x.value ≤ y.value := by
  have hall : ∀ y ∈ infinity :: l, y.isNaN = false := List.forall_mem_cons.2 ⟨infinity_isNaN, h⟩
  obtain ⟨hmem, hle⟩ := foldl_least hall
  rw [equals_iff (h x hx) (hall _ hmem)]
  constructor
  · intro hkey y hy
    rw [value_le_iff (h x hx) (h y hy), hkey]
    exact hle y (List.mem_cons_of_mem _ hy)
  · intro hleast
    refine Int.le_antisymm ?_ (hle x (List.mem_cons_of_mem _ hx))
    rcases List.mem_cons.1 hmem with hinfinity | hl
    · rw [hinfinity]
      exact key_le_infinity (h x hx)
    · exact (value_le_iff (h x hx) (h _ hl)).1 (hleast _ hl)

end Single

end Progression
