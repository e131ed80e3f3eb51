import Progression.Proofs.Evaluation.Stopping

/-!
# Questions asked again

A question that was answered left in the memo all that it came across, and what the memo says it says for good. So the
question comes to the same answer whenever it is asked again, from the memo alone (`lasts_check`): answers to questions
in a row never contradict each other, whatever was asked in between, and whether or not that was answered
(`answers_kept`).
-/

namespace Progression

/-- What questions in a row come to. -/
def Rulebook.answers (book : Rulebook) (held : Inventory) (qs : List Question) : List (Except Name Bool) :=
  ((book.askAll held qs).run ∅).value.1

/-- Where the check answers, it answers the same with any memo that says all that it leaves, and changes nothing there.
-/
def Lasts (c : Check Bool) : Prop :=
  ∀ memo, Grows memo (c.on memo).2 ∧ ∀ b m, c.on memo = (.ok b, m) → ∀ m', Grows m m' → c.on m' = (.ok b, m')

section

variable {book : Rulebook} {held : Inventory} {n : Name} {q : Question} {b : Bool}

/-! ## Answers that last -/

theorem lasts_checkName (book : Rulebook) (held : Inventory) (n : Name) : Lasts (book.checkName held n) := by
  intro memo
  refine ⟨grows_checkName book held n memo, fun b m h m' hm' => ?_⟩
  have hrecall : book.recall m n = some b := recall_of_checkName h
  exact checkName_of_recall (recall_of_grows hm' hrecall)

/-- Of two checks in a row that answer, both last: what the first one leaves the second one leaves as well. -/
theorem Lasts.bind {c : Check Bool} {f : Bool → Check Bool} (hc : Lasts c) (hf : ∀ b, Lasts (f b)) :
    Lasts (c >>= f) := by
  intro memo
  obtain ⟨hgrows, hanswer⟩ := hc memo
  rw [Check.on_bind]
  rcases hrun : c.on memo with ⟨e | a, m⟩ <;> rw [hrun] at hgrows
  · exact ⟨hgrows, fun b m' h => by cases h⟩
  · obtain ⟨hgrows', hanswer'⟩ := hf a m
    refine ⟨hgrows.trans hgrows', fun b m' h m'' hm'' => ?_⟩
    have hrun' : (f a).on m = (.ok b, m') := h
    have hm : Grows m m' := by
      rw [hrun'] at hgrows'
      exact hgrows'
    have hagain : c.on m'' = (.ok a, m'') := hanswer a m hrun m'' (hm.trans hm'')
    rw [Check.on_bind, hagain]
    exact hanswer' b m' hrun' m'' hm''

theorem lasts_pure (b : Bool) : Lasts (pure b) := by
  intro memo
  refine ⟨Grows.refl memo, fun a m h m' _ => ?_⟩
  cases h
  rfl

theorem lifts_lasts : Lifts fun (c : Check Bool) (_ : Id Bool) => Lasts c where
  value b := lasts_pure b
  andThen {x y _ _} hx hy := by
    refine hx.bind fun a => ?_
    cases a with
    | false => exact lasts_pure false
    | true => exact hy
  orElse {x y _ _} hx hy := by
    refine hx.bind fun a => ?_
    cases a with
    | false => exact hy
    | true => exact lasts_pure true

theorem lasts_check (book : Rulebook) (held : Inventory) (r : Requirement) : Lasts (book.check held r) :=
  -- there is no other way to answer here, so any will do
  @Lifts.evaluate_same Check Id _ _ _ lifts_lasts _ (fun _ => pure false) held r fun n _ => lasts_checkName book held n

/-- An answered question asked again after others is answered the same. -/
theorem answerAfter_of_answered {qs : List Question} (h : book.answerAfter held qs q = .ok b) (qs' : List Question) :
    book.answerAfter held (qs ++ q :: qs') q = .ok b := by
  have hrun : (book.check held q.asked).on (book.memoAfter held qs) = (.ok b, book.memoAfter held (qs ++ [q])) := by
    rw [Rulebook.answerAfter, Rulebook.ask_eq] at h
    rw [Rulebook.memoAfter_concat, Rulebook.ask_eq]
    exact Prod.ext h rfl
  have hgrows : Grows (book.memoAfter held (qs ++ [q])) (book.memoAfter held (qs ++ q :: qs')) := by
    have h := grows_memoAfter book held (qs ++ [q]) qs'
    rwa [← List.append_cons] at h
  have hagain := (lasts_check book held q.asked _).2 b _ hrun _ hgrows
  rw [Rulebook.answerAfter, Rulebook.ask_eq, hagain]

/-! ## Answers in a row -/

theorem getElem?_askAll (qs : List Question) (memo : Memo) (i : Nat) :
    ((book.askAll held qs).run memo).value.1[i]? = qs[i]?.map fun q =>
      ((book.ask held q).on ((qs.take i).foldl (fun memo q => ((book.ask held q).on memo).2) memo)).1 := by
  induction qs generalizing memo i with
  | nil => rfl
  | cons q qs ih =>
    have hcons : ((book.askAll held (q :: qs)).run memo).value.1 =
        ((book.ask held q).on memo).1 :: ((book.askAll held qs).run ((book.ask held q).on memo).2).value.1 := by
      unfold Rulebook.askAll
      rw [List.mapM_cons, StateT.run_bind, Logged.value_bind, StateT.run_bind, Logged.value_bind]
      rfl
    rw [hcons]
    cases i with
    | zero => rfl
    | succ i => exact ih _ i

/-- What stands before a later position is what stands before an earlier one, the element there, and some more. -/
theorem exists_take_eq_append {α : Type} {l : List α} {a : α} {i j : Nat} (hij : i < j) (hi : l[i]? = some a) :
    ∃ between, l.take j = l.take i ++ a :: between := by
  obtain ⟨hlt, hget⟩ := List.getElem?_eq_some_iff.1 hi
  have hi' : i < (l.take j).length := by
    rw [List.length_take]
    omega
  have hsplit := List.take_append_drop i (l.take j)
  rw [List.drop_eq_getElem_cons hi', List.getElem_take, hget, List.take_take, Nat.min_eq_left (by omega)] at hsplit
  exact ⟨_, hsplit.symm⟩

/-- Each question in a row comes to what it does after those before it. -/
theorem getElem?_answers (book : Rulebook) (held : Inventory) (qs : List Question) (i : Nat) :
    (book.answers held qs)[i]? = qs[i]?.map (book.answerAfter held (qs.take i)) :=
  getElem?_askAll qs ∅ i

end

/-- Once a question in a row is answered, a name or a requirement, it is answered the same whenever it is asked again,
whatever is asked in between. -/
theorem answers_kept (book : Rulebook) (held : Inventory) (qs : List Question) (i j : Nat) (q : Question) (b : Bool)
    (hij : i < j) (hi : qs[i]? = some q) (hj : qs[j]? = some q) (h : (book.answers held qs)[i]? = some (.ok b)) :
    (book.answers held qs)[j]? = some (.ok b) := by
  rw [getElem?_answers, hi] at h
  have hfirst : book.answerAfter held (qs.take i) q = .ok b := Option.some.inj h
  obtain ⟨between, hbetween⟩ := exists_take_eq_append hij hi
  rw [getElem?_answers, hj, hbetween]
  exact congrArg some (answerAfter_of_answered hfirst between)

/-- Two names that refer to each other, and one that refers to them and to a name that means nothing. -/
def looseKnot : Rulebook where
  definitions := .ofList [
    ("x", .ofClauses (.ofNames "y" []) [.ofNames "key" []]),
    ("y", .atom (.reference "x")),
    ("rope", .ofClauses (.ofNames "y" []) [.ofNames "missing" []]),
    ("key", .atom (.item 3))]
  glitchDefinitions := ∅
  settings := .default

/-- The answer "no" that `y` got while `x` was open lasts, also after a question that stopped. -/
theorem answers_kept_looseKnot :
    (looseKnot.answers (.ofList [.item 3]) [.name "x", .name "y", .name "rope", .name "x", .name "y"])[1]? =
        some (.ok false) ∧
      (looseKnot.answers (.ofList [.item 3]) [.name "x", .name "y", .name "rope", .name "x", .name "y"])[2]? =
        some (.error "missing") ∧
      (looseKnot.answers (.ofList [.item 3]) [.name "x", .name "y", .name "rope", .name "x", .name "y"])[4]? =
        some (.ok false) :=
  ⟨rfl, rfl, answers_kept looseKnot (.ofList [.item 3]) _ 1 4 (.name "y") false (by decide) rfl rfl rfl⟩

end Progression
