import Progression.Proofs.Evaluation.Invariant
import Progression.Proofs.Requirement.Valuation

/-!
# Answers and the memo

What the memo says about a name it says for good (`grows_check`), and a name that was answered is in the memo with
that answer. So an answer can be read off the memo it leaves: it is what the requirement comes to when names hold as
the memo then says, whatever is taken for the names it says nothing about (`check_coherent`).
-/

namespace Progression

/-- Everything that the first memo says about names the second one says too. -/
def Grows (memo memo' : Memo) : Prop := ∀ k y, memo.get? k = some y → memo'.get? k = some y

theorem Grows.refl (memo : Memo) : Grows memo memo := fun _ _ => id

theorem Grows.trans {memo₁ memo₂ memo₃ : Memo} (h : Grows memo₁ memo₂) (h' : Grows memo₂ memo₃) :
    Grows memo₁ memo₃ :=
  fun k y hk => h' k y (h k y hk)

/-- The answer for a name if it is asked and the memo does not have to be changed. -/
def Rulebook.recall (book : Rulebook) (memo : Memo) (n : Name) : Option Bool :=
  match book.meaning n with
  | .constant b => some b
  | .undefined => none
  | .token _ => (memo.get? n).map Resolution.answer
  | .bound _ => (memo.get? n).map Resolution.answer

section

variable {book : Rulebook} {held : Inventory} {memo m : Memo} {n k : Name} {b : Bool}

/-! ## The memo only grows -/

/-- A name that the memo knows is not opened again, so its entry stays. -/
theorem settles_entry (book : Rulebook) (held : Inventory) (k : Name) (y : Resolution) :
    Settles book held (fun opened n => n :: opened) (fun _ _ => True)
      (fun opened memo => k ∉ opened ∧ memo.get? k = some y) (fun opened memo => k ∉ opened ∧ memo.get? k = some y)
      (fun _ (_ : Id Bool) => True) (fun _ _ => false) where
  follows := follows_of_ok fun _ => trivial
  constant _ _ := trivial
  undefined _ hmemo _ := ⟨trivial, hmemo⟩
  known _ _ _ := trivial
  token {opened n memo t} _ hmemo _ hget := by
    have hne : k ≠ n := fun h => by rw [← h, hmemo.2] at hget; cases hget
    exact ⟨trivial, hmemo.1, by rw [Table.get?_set, if_neg hne, hmemo.2]⟩
  mark {opened n memo r} _ hmemo _ hget := by
    have hne : k ≠ n := fun h => by rw [← h, hmemo.2] at hget; cases hget
    refine ⟨⟨?_, by rw [Table.get?_set, if_neg hne, hmemo.2]⟩, fun _ _ => trivial⟩
    exact fun h => (List.mem_cons.1 h).elim hne hmemo.1
  settle {opened n m r b} _ _ hm _ := by
    obtain ⟨hne, hopened⟩ := List.ne_and_not_mem_of_not_mem_cons hm.1
    exact ⟨trivial, hopened, by rw [Table.get?_set, if_neg hne, hm.2]⟩
  stop {opened n m r e} _ _ hm _ := ⟨trivial, (List.ne_and_not_mem_of_not_mem_cons hm.1).2, hm.2⟩

theorem grows_checkName (book : Rulebook) (held : Inventory) (n : Name) (memo : Memo) :
    Grows memo ((book.checkName held n).on memo).2 := by
  intro k y hk
  obtain ⟨-, h⟩ := (settles_entry book held k y).checkName (n := n) trivial memo ⟨List.not_mem_nil, hk⟩
  split at h <;> exact h.2

theorem grows_check (book : Rulebook) (held : Inventory) (r : Requirement) (memo : Memo) :
    Grows memo ((book.check held r).on memo).2 := by
  intro k y hk
  obtain ⟨-, h⟩ := (settles_entry book held k y).check (r := r) (fun _ _ => trivial) memo ⟨List.not_mem_nil, hk⟩
  split at h <;> exact h.2

/-! ## Answers are in the memo -/

theorem recall_of_grows {memo' : Memo} (h : Grows memo memo') (hk : book.recall memo k = some b) :
    book.recall memo' k = some b := by
  unfold Rulebook.recall at hk ⊢
  cases hmean : book.meaning k with
  | constant value => rwa [hmean] at hk
  | undefined => rwa [hmean] at hk
  | token t =>
    rw [hmean] at hk
    obtain ⟨y, hy, rfl⟩ := Option.map_eq_some_iff.1 hk
    exact Option.map_eq_some_iff.2 ⟨y, h k y hy, rfl⟩
  | bound r =>
    rw [hmean] at hk
    obtain ⟨y, hy, rfl⟩ := Option.map_eq_some_iff.1 hk
    exact Option.map_eq_some_iff.2 ⟨y, h k y hy, rfl⟩

/-- After a name was answered, the memo gives the same answer. -/
theorem recall_of_checkName (h : (book.checkName held n).on memo = (.ok b, m)) : book.recall m n = some b := by
  have hstep := book.checkName_step held n memo
  rw [h] at hstep
  unfold Rulebook.recall
  cases hstep with
  | constant hmean => rw [hmean]
  | known hmean hget => obtain ⟨t, hmean⟩ | ⟨r, hmean⟩ := hmean <;> rw [hmean] <;> simp [hget]
  | token hmean hget => rw [hmean]; simp [Table.get?_set, Resolution.answer]
  | opened hmean hget hbody => rw [hmean]; simp [Table.get?_set, Resolution.answer]

/-- A name that the memo gives an answer for is answered so, and the memo stays. -/
theorem checkName_of_recall (h : book.recall memo n = some b) : (book.checkName held n).on memo = (.ok b, memo) := by
  have hstep := book.checkName_step held n memo
  unfold Rulebook.recall at h
  generalize (book.checkName held n).on memo = p at hstep ⊢
  cases hstep with
  | constant hmean => rw [hmean] at h; cases h; rfl
  | undefined hmean => rw [hmean] at h; cases h
  | @known x hmean hget =>
    have hx : some x.answer = some b := by
      obtain ⟨t, hmean⟩ | ⟨r, hmean⟩ := hmean <;> rw [hmean] at h <;> simpa [hget] using h
    rw [Option.some.inj hx]
  | token hmean hget => rw [hmean] at h; simp [hget] at h
  | opened hmean hget hbody => rw [hmean] at h; simp [hget] at h
  | stopped hmean hget hbody => rw [hmean] at h; simp [hget] at h

/-! ## Answers are read off the memo -/

/-- A check that grows the memo, and answers `x` provided that `w` says what the memo afterwards does. -/
def Coherent (book : Rulebook) (w : Name → Bool) (c : Check Bool) (x : Id Bool) : Prop :=
  ∀ memo, Grows memo (c.on memo).2 ∧
    ∀ b m, c.on memo = (.ok b, m) → (∀ k a, book.recall m k = some a → w k = a) → b = x

theorem lifts_coherent (book : Rulebook) (w : Name → Bool) : Lifts (Coherent book w) where
  value b memo := ⟨Grows.refl memo, fun _ _ h _ => by cases h; rfl⟩
  andThen {x y x' y'} hx hy memo := by
    obtain ⟨hgrows, hanswer⟩ := hx memo
    rw [Check.on_bind]
    rcases hrun : x.on memo with ⟨n | (_ | _), m⟩ <;> rw [hrun] at hgrows
    · exact ⟨hgrows, fun _ _ h _ => by cases h⟩
    · refine ⟨hgrows, fun b m' h hw => ?_⟩
      cases h
      obtain rfl := hanswer false m hrun hw
      rfl
    · obtain ⟨hgrows', hanswer'⟩ := hy m
      refine ⟨hgrows.trans hgrows', fun b m' h hw => ?_⟩
      have hm : Grows m m' := by
        rw [show y.on m = (.ok b, m') from h] at hgrows'
        exact hgrows'
      obtain rfl := hanswer true m hrun fun k a hk => hw k a (recall_of_grows hm hk)
      exact hanswer' b m' h hw
  orElse {x y x' y'} hx hy memo := by
    obtain ⟨hgrows, hanswer⟩ := hx memo
    rw [Check.on_bind]
    rcases hrun : x.on memo with ⟨n | (_ | _), m⟩ <;> rw [hrun] at hgrows
    · exact ⟨hgrows, fun _ _ h _ => by cases h⟩
    · obtain ⟨hgrows', hanswer'⟩ := hy m
      refine ⟨hgrows.trans hgrows', fun b m' h hw => ?_⟩
      have hm : Grows m m' := by
        rw [show y.on m = (.ok b, m') from h] at hgrows'
        exact hgrows'
      obtain rfl := hanswer false m hrun fun k a hk => hw k a (recall_of_grows hm hk)
      exact hanswer' b m' h hw
    · refine ⟨hgrows, fun b m' h hw => ?_⟩
      cases h
      obtain rfl := hanswer true m hrun hw
      rfl

theorem coherent_checkName (book : Rulebook) (held : Inventory) (w : Name → Bool) (n : Name) :
    Coherent book w (book.checkName held n) (w n) :=
  fun memo => ⟨grows_checkName book held n memo, fun b _ h hw => (hw n b (recall_of_checkName h)).symm⟩

/-- An answer is what the requirement comes to when names hold as the memo afterwards says. -/
theorem check_coherent {r : Requirement} {w : Name → Bool} (h : (book.check held r).on memo = (.ok b, m))
    (hw : ∀ k a, book.recall m k = some a → w k = a) : r.holds held w = b := by
  have hcoherent := (lifts_coherent book w).evaluate_same held r fun n _ => coherent_checkName book held w n
  exact (Requirement.evaluate_pure r).symm.trans ((hcoherent memo).2 b m h hw).symm

/-- Where a requirement that holds under a valuation is answered "no", the memo afterwards gives the answer "no" for
one of the names that hold. -/
theorem exists_recall_false {r : Requirement} {v : Name → Bool}
    (h : (book.check held r).on memo = (.ok false, m)) (hv : r.holds held v = true) :
    ∃ k ∈ r.references, v k = true ∧ book.recall m k = some false := by
  refine Classical.byContradiction fun hnone => ?_
  have hw : r.holds held (fun k => (book.recall m k).getD (v k)) = false :=
    check_coherent h fun k a hk => by rw [hk]; rfl
  refine Bool.false_ne_true (hw.symm.trans (Requirement.holds_mono (fun _ => id) (fun k hk hvk => ?_) hv))
  rcases hrecall : book.recall m k with _ | (_ | _)
  · exact hvk
  · exact absurd ⟨k, hk, hvk, hrecall⟩ hnone
  · rfl

end

end Progression
