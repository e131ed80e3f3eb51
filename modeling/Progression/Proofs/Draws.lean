import Mathlib.Data.List.Nodup
import Mathlib.Data.Set.Card
import Progression.Draws

/-!
# What can be drawn

What is chosen from a list is one of its elements (`Draws.exists_choose_eq`), and so is all that is sampled
(`Draws.mem_of_mem_sample`). No element is left out: every number below a bound has a word (`Draws.exists_number?_eq`),
so every element of a list is chosen with some words (`Draws.exists_draws_choose_eq`). The positions of a sample are
distinct (`Draws.arePositions_positions`), so a sample of distinct elements has no repetitions, and as many elements as
were asked for, unless there are fewer (`Draws.sampled_sample`).
-/

namespace Progression.Draws

variable {α β : Type} {n i k j : Nat} {l : List α} {a : α}

theorem run_bind (x : Drawing α) (f : α → Drawing β) (d : Draws) :
    (x >>= f).run d = (f (x.run d).1).run (x.run d).2 := rfl

/-! ## Numbers below a bound -/

theorem below_go_lt (hn : 0 < n) (ws : List UInt32) (used : Nat) : (below.go n ws used).1 < n := by
  induction ws generalizing used with
  | nil => exact hn
  | cons w ws ih =>
    unfold below.go
    cases hw : number? n w with
    | none => exact ih (used + 1)
    | some i => exact number?_lt hn hw

theorem below_lt (hn : 0 < n) (d : Draws) : ((below n).run d).1 < n := below_go_lt hn d.words d.used

theorem run_below_cons {w : UInt32} (h : number? n w = some i) (ws : List UInt32) (used : Nat) :
    (below n).run ⟨w :: ws, used⟩ = (i, ⟨ws, used + 1⟩) := by
  show below.go n (w :: ws) used = _
  rw [below.go, h]

/-- A low half below the bound is never too great. -/
theorem le_zone {r : Nat} (h : r < n) : r ≤ zone n := by
  have hpow : 1 ≤ Nat.pow 2 (31 - n.log2) := Nat.one_le_two_pow
  have hmul : n * 1 ≤ n * Nat.pow 2 (31 - n.log2) := Nat.mul_le_mul_left n hpow
  unfold zone
  omega

/-- Every number below a bound has a word, unless the bound is greater than the number of words. -/
theorem exists_number?_eq (hi : i < n) (hn : n ≤ UInt32.size) : ∃ w, number? n w = some i := by
  -- the first word whose product with the bound has `i` as its high half
  let k := (i * UInt32.size + (n - 1)) / n
  have hdiv : k * n + (i * UInt32.size + (n - 1)) % n = i * UInt32.size + (n - 1) := Nat.div_add_mod' _ n
  have hmod : (i * UInt32.size + (n - 1)) % n < n := Nat.mod_lt _ (by omega)
  have hproduct : k * n < (i + 1) * UInt32.size := by
    rw [Nat.succ_mul]
    omega
  have hk : k < UInt32.size := by
    have hle : (i + 1) * UInt32.size ≤ n * UInt32.size := Nat.mul_le_mul_right _ hi
    exact Nat.lt_of_mul_lt_mul_right (Nat.lt_of_lt_of_le hproduct (by rwa [Nat.mul_comm UInt32.size]))
  have hhigh : k * n / UInt32.size = i := Nat.div_eq_of_lt_le (by omega) hproduct
  have hlow : k * n % UInt32.size < n := by
    have hsplit := Nat.div_add_mod' (k * n) UInt32.size
    rw [hhigh] at hsplit
    omega
  refine ⟨UInt32.ofNat k, ?_⟩
  simp only [number?, UInt32.toNat_ofNat_of_lt' hk, if_pos (le_zone hlow), hhigh]

/-! ## Elements of a list -/

theorem run_choose (hl : l ≠ []) (d : Draws) :
    (choose l).run d = (l[((below l.length).run d).1]?, ((below l.length).run d).2) := by
  unfold choose
  rw [if_neg hl]
  rfl

/-- From a list with elements one of them is chosen, whatever the words are. -/
theorem exists_choose_eq (hl : l ≠ []) (d : Draws) : ∃ a ∈ l, ((choose l).run d).1 = some a := by
  have hlt := below_lt (List.length_pos_iff.2 hl) d
  refine ⟨l[((below l.length).run d).1], List.getElem_mem hlt, ?_⟩
  rw [run_choose hl]
  exact List.getElem?_eq_getElem hlt

theorem mem_of_choose_eq {d : Draws} (h : ((choose l).run d).1 = some a) : a ∈ l := by
  by_cases hl : l = []
  · subst hl
    cases h
  · obtain ⟨b, hb, hchoose⟩ := exists_choose_eq hl d
    obtain rfl := Option.some.inj (h.symm.trans hchoose)
    exact hb

/-- Every element of a list is chosen with some words. -/
theorem exists_draws_choose_eq (ha : a ∈ l) (hl : l.length ≤ UInt32.size) : ∃ d, ((choose l).run d).1 = some a := by
  obtain ⟨i, hi, rfl⟩ := List.mem_iff_getElem.1 ha
  obtain ⟨w, hw⟩ := exists_number?_eq hi hl
  refine ⟨⟨[w], 0⟩, ?_⟩
  rw [run_choose (List.ne_nil_of_mem ha), run_below_cons hw]
  exact List.getElem?_eq_getElem hi

theorem mem_of_mem_sample {d : Draws} (h : a ∈ ((sample k l).run d).1) : a ∈ l := by
  have hsample : ((sample k l).run d).1 = ((positions k l.length).run d).1.filterMap (l[·]?) := rfl
  rw [hsample] at h
  obtain ⟨i, -, hi⟩ := List.mem_filterMap.1 h
  exact List.mem_of_getElem? hi

/-! ## Distinct positions -/

variable {ps qs : List Nat}

/-- So many distinct positions in a list of length `n`. -/
structure ArePositions (k n : Nat) (ps : List Nat) : Prop where
  nodup : ps.Nodup
  lt : ∀ i ∈ ps, i < n
  length : ps.length = k

theorem arePositions_nil (n : Nat) : ArePositions 0 n [] where
  nodup := List.nodup_nil
  lt _ hi := absurd hi List.not_mem_nil
  length := rfl

/-- One more position, wherever it is put among the others. -/
theorem ArePositions.cons_perm (h : ArePositions k j ps) (hi : i ∉ ps) (hij : i ≤ j) (hqs : qs.Perm (i :: ps)) :
    ArePositions (k + 1) (j + 1) qs where
  nodup := hqs.nodup_iff.2 (List.nodup_cons.2 ⟨hi, h.nodup⟩)
  lt p hp := by
    rcases List.mem_cons.1 (hqs.mem_iff.1 hp) with rfl | hp
    · exact Nat.lt_succ_of_le hij
    · exact Nat.lt_succ_of_lt (h.lt p hp)
  length := by rw [hqs.length_eq, List.length_cons, h.length]

/-- What is added is the drawn position, or `j` if that one is there already. -/
theorem arePositions_addPosition (h : ArePositions k j ps) (d : Draws) :
    ArePositions (k + 1) (j + 1) ((addPosition j ps).run d).1 := by
  have hdrawn : ((below (j + 1)).run d).1 ≤ j := Nat.le_of_lt_succ (below_lt j.succ_pos d)
  have hrun : ((addPosition j ps).run d).1 =
      if ((below (j + 1)).run d).1 ∈ ps then ps.insertIdx (ps.idxOf ((below (j + 1)).run d).1) j
      else ps ++ [((below (j + 1)).run d).1] := rfl
  rw [hrun]
  generalize ((below (j + 1)).run d).1 = t at hdrawn ⊢
  split
  · have hj : j ∉ ps := fun hmem => Nat.lt_irrefl j (h.lt j hmem)
    exact h.cons_perm hj (Nat.le_refl j) (List.perm_insertIdx j ps List.idxOf_le_length)
  · next ht => exact h.cons_perm ht hdrawn (List.perm_append_singleton t ps)

theorem arePositions_foldlM (start k : Nat) (d : Draws) :
    ArePositions k (start + k) (((List.range k).foldlM (fun ps i => addPosition (start + i) ps) []).run d).1 := by
  induction k with
  | zero => exact arePositions_nil start
  | succ k ih =>
    rw [List.range_succ, List.foldlM_append, run_bind, List.foldlM_cons, run_bind]
    exact arePositions_addPosition ih _

theorem arePositions_positions (k n : Nat) (d : Draws) : ArePositions (min k n) n ((positions k n).run d).1 := by
  have hfold := arePositions_foldlM (n - min k n) (min k n) d
  rwa [Nat.sub_add_cancel (Nat.min_le_right k n)] at hfold

/-! ## Distinct elements -/

/-- So many distinct elements of a finite set, or all of them if there are fewer. -/
structure Sampled (k : Nat) (pool : Set α) (l : List α) : Prop where
  nodup : l.Nodup
  mem : ∀ a ∈ l, a ∈ pool
  length : l.length = min k pool.ncard

theorem ncard_of_nodup {pool : Set α} (hl : l.Nodup) (hpool : ∀ a, a ∈ l ↔ a ∈ pool) : pool.ncard = l.length := by
  classical
  have hset : pool = (l.toFinset : Set α) := Set.ext fun a => by rw [List.coe_toFinset]; exact (hpool a).symm
  rw [hset, Set.ncard_coe_finset, List.toFinset_card_of_nodup hl]

theorem sampled_sample {pool : Set α} (hl : l.Nodup) (hpool : ∀ a, a ∈ l ↔ a ∈ pool) (k : Nat) (d : Draws) :
    Sampled k pool ((sample k l).run d).1 := by
  have hsample : ((sample k l).run d).1 = ((positions k l.length).run d).1.filterMap (l[·]?) := rfl
  have hpositions := arePositions_positions k l.length d
  refine ⟨?_, fun a ha => (hpool a).1 (mem_of_mem_sample ha), ?_⟩
  · rw [hsample]
    refine hpositions.nodup.filterMap fun i i' a hi hi' => ?_
    have hlt : i < l.length := (List.getElem?_eq_some_iff.1 hi).1
    exact (List.getElem?_inj hlt hl).1 (Eq.trans hi hi'.symm)
  · rw [ncard_of_nodup hl hpool, ← hpositions.length, hsample, List.filterMap_length_eq_length]
    intro i hi
    rw [List.getElem?_eq_getElem (hpositions.lt i hi)]
    rfl

end Progression.Draws
