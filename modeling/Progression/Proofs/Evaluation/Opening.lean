import Progression.Proofs.Evaluation.Run

/-!
# Opening names

What it takes to decide a name. The budget of openings inside each other never runs out: a name is opened only if it
is bound and the memo says nothing about it, and then the memo does (`unopened_mark_lt`). So a name is decided by
deciding its requirement, with no budget in sight (`checkName_eq`), and there are six ways how that goes
(`NameStep`). Everything about names is proved from these six by induction on the number of bound names that the
memo says nothing about.
-/

namespace Progression

/-! ## Meanings -/

namespace Rulebook

variable {book : Rulebook} {n : Name}

theorem meaning_of_rule {rule : Rule} (h : book.settings.rule? n = some rule) :
    book.meaning n = .constant (book.settings.value rule) := by
  rw [meaning, h]

theorem meaning_of_binding {r : Requirement} (hrule : book.settings.rule? n = none)
    (h : book.definitions.get? n = some r) : book.meaning n = .ofRequirement r := by
  rw [meaning, hrule, h]

theorem meaning_of_unbound (hrule : book.settings.rule? n = none) (h : book.definitions.get? n = none) :
    book.meaning n =
      if !book.settings.glitches && n ∈ book.glitchDefinitions then .constant false else .undefined := by
  rw [meaning, hrule, h]

end Rulebook

theorem Meaning.eq_of_ofRequirement_eq_bound {r r' : Requirement} (h : ofRequirement r = .bound r') : r = r' := by
  rcases r with _ | (_ | _ | _ | _) | _ <;> simp_all [ofRequirement]

namespace Rulebook

variable {book : Rulebook} {n : Name}

/-- Only a binding makes a name stand for a requirement that is opened. -/
theorem get?_of_meaning_bound {r : Requirement} (h : book.meaning n = .bound r) :
    book.definitions.get? n = some r := by
  cases hrule : book.settings.rule? n with
  | some rule => rw [meaning_of_rule hrule] at h; cases h
  | none =>
    cases hget : book.definitions.get? n with
    | some r' =>
      rw [meaning_of_binding hrule hget] at h
      rw [Meaning.eq_of_ofRequirement_eq_bound h]
    | none =>
      rw [meaning_of_unbound hrule hget] at h
      split at h <;> cases h

theorem mem_of_meaning_bound {r : Requirement} (h : book.meaning n = .bound r) : n ∈ book.definitions :=
  Table.mem_iff_get?.2 ⟨r, get?_of_meaning_bound h⟩

/-! ## Names that the memo says nothing about -/

/-- How many bound names the memo says nothing about. -/
def unopened (book : Rulebook) (memo : Memo) : Nat := book.definitions.keys.countP (· ∉ memo)

theorem unopened_le_size (memo : Memo) : book.unopened memo ≤ book.definitions.size := by
  have h : book.unopened memo ≤ book.definitions.keys.length := List.countP_le_length
  simpa [Table.keys, Table.size] using h

theorem countP_notMem_set_le (l : List Name) (memo : Memo) (n : Name) (x : Resolution) :
    l.countP (· ∉ memo.set n x) ≤ l.countP (· ∉ memo) := by
  refine List.countP_mono_left fun j _ hj => ?_
  simp only [Table.mem_set, decide_eq_true_eq, not_or] at hj ⊢
  exact hj.2

theorem unopened_set_le (memo : Memo) (n : Name) (x : Resolution) :
    book.unopened (memo.set n x) ≤ book.unopened memo :=
  countP_notMem_set_le _ memo n x

/-- Opening a name leaves fewer. -/
theorem unopened_mark_lt {memo : Memo} {r : Requirement} (hmean : book.meaning n = .bound r)
    (hget : memo.get? n = none) : book.unopened (memo.set n .inProgress) < book.unopened memo := by
  have hm : n ∉ memo := Table.get?_eq_none_iff.1 hget
  obtain ⟨s, t, hst⟩ := List.append_of_mem (Table.mem_keys.2 (mem_of_meaning_bound hmean))
  have hs := countP_notMem_set_le s memo n .inProgress
  have ht := countP_notMem_set_le t memo n .inProgress
  unfold unopened
  rw [hst, List.countP_append, List.countP_append, List.countP_cons, List.countP_cons, if_neg (by simp),
    if_pos (by simpa using hm)]
  omega

end Rulebook

/-! ## The budget -/

theorem Logged.bind_congr {α β : Type} {x : Logged α} {f g : α → Logged β} (h : f x.value = g x.value) :
    x >>= f = x >>= g := by
  show Logged.bind x f = Logged.bind x g
  rw [Logged.bind, Logged.bind, h]

namespace Check

variable {α β : Type} {memo : Memo}

/-- Two checks that go on the same way from what the first one leaves are the same, log and all. -/
theorem run_bind_congr {c : Check α} {f g : α → Check β}
    (h : ∀ a m, c.on memo = (.ok a, m) → (f a).run.run m = (g a).run.run m) :
    (c >>= f).run.run memo = (c >>= g).run.run memo := by
  rw [run_bind, run_bind]
  refine Logged.bind_congr ?_
  rcases hc : (c.run.run memo).value with ⟨a | a, m⟩
  · rfl
  · exact h a m hc

theorem run_bind_congr_left {c d : Check α} (f : α → Check β) (h : c.run.run memo = d.run.run memo) :
    (c >>= f).run.run memo = (d >>= f).run.run memo := by
  rw [run_bind, run_bind, h]

end Check

section

variable {book : Rulebook} {held : Inventory} {n : Name} {memo : Memo}

/-- Deciding a name depends on how requirements are decided only if the name is opened, and only on the memo with
the name marked. -/
theorem askNameWith_congr {o o' : Requirement → Check Bool}
    (h : ∀ r, book.meaning n = .bound r → memo.get? n = none →
      (o r).run.run (memo.set n .inProgress) = (o' r).run.run (memo.set n .inProgress)) :
    (askNameWith book held o n).run.run memo = (askNameWith book held o' n).run.run memo := by
  unfold askNameWith
  refine Check.run_bind_congr fun _ m hm => ?_
  obtain rfl : memo = m := congrArg Prod.snd hm
  cases hmean : book.meaning n with
  | constant value => rfl
  | undefined => rfl
  | token t => rfl
  | bound r =>
    refine Check.run_bind_congr fun x m hm => ?_
    obtain ⟨hx, rfl⟩ := Prod.mk.inj hm
    cases x with
    | some x => rfl
    | none =>
      refine Check.run_bind_congr fun _ m hm => ?_
      obtain rfl : memo.set n .inProgress = m := congrArg Prod.snd hm
      exact Check.run_bind_congr_left _ (h r hmean (Except.ok.inj hx))

/-- What a name answers on a memo, and the memo after it, where `o` decides requirements: one case for each way to
decide a name. -/
inductive NameStep (book : Rulebook) (held : Inventory) (o : Requirement → Check Bool) (n : Name) (memo : Memo) :
    Except Name Bool × Memo → Prop
  | constant {value : Bool} (hmean : book.meaning n = .constant value) :
    NameStep book held o n memo (.ok value, memo)
  | undefined (hmean : book.meaning n = .undefined) : NameStep book held o n memo (.error n, memo)
  /-- The memo knows the name, be it open or settled. -/
  | known {x : Resolution} (hmean : (∃ t, book.meaning n = .token t) ∨ ∃ r, book.meaning n = .bound r)
    (hget : memo.get? n = some x) : NameStep book held o n memo (.ok x.answer, memo)
  | token {t : Token} (hmean : book.meaning n = .token t) (hget : memo.get? n = none) :
    NameStep book held o n memo (.ok (t ∈ held : Bool), memo.set n (.settled (t ∈ held)))
  | opened {r : Requirement} {met : Bool} {m : Memo} (hmean : book.meaning n = .bound r) (hget : memo.get? n = none)
    (hbody : (o r).on (memo.set n .inProgress) = (.ok met, m)) :
    NameStep book held o n memo (.ok met, m.set n (.settled met))
  /-- A name that means nothing was reached, and the mark on the open name stays. -/
  | stopped {r : Requirement} {e : Name} {m : Memo} (hmean : book.meaning n = .bound r) (hget : memo.get? n = none)
    (hbody : (o r).on (memo.set n .inProgress) = (.error e, m)) : NameStep book held o n memo (.error e, m)

theorem askNameWith_step (book : Rulebook) (held : Inventory) (o : Requirement → Check Bool) (n : Name) (memo : Memo) :
    NameStep book held o n memo ((askNameWith book held o n).on memo) := by
  unfold askNameWith
  simp only [Check.on_bind, Check.on_tell]
  cases hmean : book.meaning n with
  | constant value => exact .constant hmean
  | undefined => exact .undefined hmean
  | token t =>
    simp only [Check.on_bind, Check.on_lookUp]
    cases hget : memo.get? n with
    | some x => exact .known (.inl ⟨t, hmean⟩) hget
    | none => exact .token hmean hget
  | bound r =>
    simp only [Check.on_bind, Check.on_lookUp]
    cases hget : memo.get? n with
    | some x => exact .known (.inr ⟨r, hmean⟩) hget
    | none =>
      simp only [Check.on_bind, Check.on_note]
      rcases hbody : (o r).on (memo.set n .inProgress) with ⟨e | met, m⟩
      · exact .stopped hmean hget hbody
      · exact .opened hmean hget hbody

/-- Two checks that run alike where the memo says nothing about at most `k` bound names, and leave no more of them. -/
def Rulebook.AgreeWithin (book : Rulebook) (k : Nat) (c d : Check Bool) : Prop :=
  ∀ memo, book.unopened memo ≤ k →
    c.run.run memo = d.run.run memo ∧ book.unopened (c.on memo).2 ≤ book.unopened memo

theorem Rulebook.lifts_agreeWithin (book : Rulebook) (k : Nat) : Lifts (book.AgreeWithin k) where
  value b memo _ := ⟨rfl, Nat.le_refl _⟩
  andThen {x y x' y'} hx hy memo hk := by
    obtain ⟨hrun, hle⟩ := hx memo hk
    refine ⟨(Check.run_bind_congr fun b m hm => ?_).trans (Check.run_bind_congr_left _ hrun), ?_⟩
    · rw [hm] at hle
      cases b with
      | false => rfl
      | true => exact (hy m (Nat.le_trans hle hk)).1
    · rw [Check.on_bind]
      rcases hc : x.on memo with ⟨(n | (_ | _)), m⟩ <;> rw [hc] at hle
      · exact hle
      · exact hle
      · exact Nat.le_trans (hy m (Nat.le_trans hle hk)).2 hle
  orElse {x y x' y'} hx hy memo hk := by
    obtain ⟨hrun, hle⟩ := hx memo hk
    refine ⟨(Check.run_bind_congr fun b m hm => ?_).trans (Check.run_bind_congr_left _ hrun), ?_⟩
    · rw [hm] at hle
      cases b with
      | false => exact (hy m (Nat.le_trans hle hk)).1
      | true => rfl
    · rw [Check.on_bind]
      rcases hc : x.on memo with ⟨(n | (_ | _)), m⟩ <;> rw [hc] at hle
      · exact hle
      · exact Nat.le_trans (hy m (Nat.le_trans hle hk)).2 hle
      · exact hle

/-- A name is opened on a memo that says nothing about fewer names, so it is enough to agree there. -/
theorem agreeWithin_askNameWith {k : Nat} {o o' : Requirement → Check Bool}
    (h : ∀ j < k, ∀ r, book.AgreeWithin j (o r) (o' r)) (n : Name) :
    book.AgreeWithin k (askNameWith book held o n) (askNameWith book held o' n) := by
  intro memo hk
  have hopen : ∀ r, book.meaning n = .bound r → memo.get? n = none →
      book.unopened (memo.set n .inProgress) < k := fun r hr hn =>
    Nat.lt_of_lt_of_le (Rulebook.unopened_mark_lt hr hn) hk
  refine ⟨askNameWith_congr fun r hr hn => (h _ (hopen r hr hn) r _ (Nat.le_refl _)).1, ?_⟩
  have hstep := askNameWith_step book held o n memo
  generalize (askNameWith book held o n).on memo = p at hstep ⊢
  cases hstep with
  | constant hmean => exact Nat.le_refl _
  | undefined hmean => exact Nat.le_refl _
  | known hmean hget => exact Nat.le_refl _
  | token hmean hget => exact Rulebook.unopened_set_le memo n _
  | @opened r met m hmean hget hbody =>
    have hle := (h _ (hopen r hmean hget) r _ (Nat.le_refl _)).2
    rw [hbody] at hle
    calc book.unopened (m.set n (.settled met)) ≤ book.unopened m := Rulebook.unopened_set_le m n _
      _ ≤ book.unopened (memo.set n .inProgress) := hle
      _ ≤ book.unopened memo := Rulebook.unopened_set_le memo n _
  | @stopped r e m hmean hget hbody =>
    have hle := (h _ (hopen r hmean hget) r _ (Nat.le_refl _)).2
    rw [hbody] at hle
    exact Nat.le_trans hle (Rulebook.unopened_set_le memo n _)

/-- Budgets that cover the bound names the memo says nothing about make no difference. -/
theorem askName_agreeWithin (book : Rulebook) (held : Inventory) {k k' : Nat} (hk : k ≤ k') (n : Name) :
    book.AgreeWithin k (askName book held k n) (askName book held k' n) := by
  induction k generalizing k' n with
  | zero =>
    cases k' with
    | zero => exact agreeWithin_askNameWith (fun j hj => absurd hj (Nat.not_lt_zero j)) n
    | succ k' => exact agreeWithin_askNameWith (fun j hj => absurd hj (Nat.not_lt_zero j)) n
  | succ k ih =>
    obtain ⟨l, rfl⟩ : ∃ l, k' = l + 1 := ⟨k' - 1, by omega⟩
    refine agreeWithin_askNameWith (fun j hj r memo hj' => ?_) n
    have hl : k ≤ l := by omega
    have hbody := (book.lifts_agreeWithin k).evaluate_same held r fun m _ => ih hl m
    exact hbody memo (by omega)

namespace Rulebook

/-- A name is decided by deciding its requirement, where names are decided in the same way. -/
theorem checkName_eq (book : Rulebook) (held : Inventory) (n : Name) :
    book.checkName held n = askNameWith book held (book.check held) n := by
  funext memo
  exact (askName_agreeWithin book held (Nat.le_succ book.definitions.size) n memo (book.unopened_le_size memo)).1

theorem checkName_step (book : Rulebook) (held : Inventory) (n : Name) (memo : Memo) :
    NameStep book held (book.check held) n memo ((book.checkName held n).on memo) := by
  rw [checkName_eq]
  exact askNameWith_step book held (book.check held) n memo

theorem unopened_checkName_le (book : Rulebook) (held : Inventory) (n : Name) (memo : Memo) :
    book.unopened ((book.checkName held n).on memo).2 ≤ book.unopened memo :=
  (askName_agreeWithin book held (Nat.le_refl book.definitions.size) n memo (book.unopened_le_size memo)).2

end Rulebook

end

end Progression
