import Mathlib.Data.List.Forall2
import Progression.Proofs.Evaluation.Spoiling

/-!
# Names in a row

Names may be decided one after the other with one memo, up to the first that means nothing. Whatever a requirement
leaves in the memo, a row of names leaves as well (`leavesRow_check`), and the last answer of a row is that of a
requirement which asks for the same names in turn (`on_inTurn`). So where no requirement that is asked first is
answered wrongly, no row is: each answer says whether its name is grounded (`checkNames_of_complete`).
-/

namespace Progression

/-- Decides names one after the other with one memo. -/
def Rulebook.checkNames (book : Rulebook) (held : Inventory) (ns : List Name) : Check (List Bool) :=
  ns.mapM (book.checkName held)

/-- Names in a row are answered if and only if each is when it is asked first, and the same. -/
def Rulebook.RowAgrees (book : Rulebook) (held : Inventory) (ns : List Name) : Prop :=
  ∀ bs, ((book.checkNames held ns).on ∅).1 = .ok bs ↔
    List.Forall₂ (fun n b => ((book.checkName held n).on ∅).1 = .ok b) ns bs

section

variable {book : Rulebook} {held : Inventory} {ns ns' : List Name} {bs bs' : List Bool} {n : Name} {b : Bool}
  {memo m m' : Memo}

theorem checkNames_nil : (book.checkNames held []).on memo = (.ok [], memo) := rfl

theorem checkNames_cons_eq_ok :
    (book.checkNames held (n :: ns)).on memo = (.ok bs, m) ↔ ∃ b cs m', bs = b :: cs ∧
      (book.checkName held n).on memo = (.ok b, m') ∧ (book.checkNames held ns).on m' = (.ok cs, m) := by
  unfold Rulebook.checkNames
  rw [List.mapM_cons, Check.bind_on_eq_ok]
  constructor
  · rintro ⟨b, m', hn, h⟩
    obtain ⟨cs, m'', hns, h⟩ := Check.bind_on_eq_ok.1 h
    cases h
    exact ⟨b, cs, m', rfl, hn, hns⟩
  · rintro ⟨b, cs, m', rfl, hn, hns⟩
    exact ⟨b, m', hn, Check.bind_on_eq_ok.2 ⟨cs, m, hns, rfl⟩⟩

theorem checkNames_singleton (h : (book.checkName held n).on memo = (.ok b, m)) :
    (book.checkNames held [n]).on memo = (.ok [b], m) :=
  checkNames_cons_eq_ok.2 ⟨b, [], m, rfl, h, checkNames_nil⟩

theorem checkNames_append (h : (book.checkNames held ns).on memo = (.ok bs, m))
    (h' : (book.checkNames held ns').on m = (.ok bs', m')) :
    (book.checkNames held (ns ++ ns')).on memo = (.ok (bs ++ bs'), m') := by
  induction ns generalizing memo bs with
  | nil =>
    cases h
    exact h'
  | cons n ns ih =>
    obtain ⟨b, cs, m₁, rfl, hn, hns⟩ := checkNames_cons_eq_ok.1 h
    exact checkNames_cons_eq_ok.2 ⟨b, cs ++ bs', m₁, rfl, hn, ih hns⟩

/-! ## Rows and requirements -/

/-- Where the check answers, some names in a row leave the same memo. -/
def LeavesRow (book : Rulebook) (held : Inventory) (c : Check Bool) : Prop :=
  ∀ memo b m, c.on memo = (.ok b, m) → ∃ ns bs, (book.checkNames held ns).on memo = (.ok bs, m)

theorem lifts_leavesRow (book : Rulebook) (held : Inventory) :
    Lifts fun (c : Check Bool) (_ : Id Bool) => LeavesRow book held c where
  value b memo c m h := by
    cases h
    exact ⟨[], [], checkNames_nil⟩
  andThen {x y _ _} hx hy memo b m h := by
    obtain ⟨a, m', ha, h⟩ := Check.bind_on_eq_ok.1 h
    obtain ⟨ns, bs, hns⟩ := hx memo a m' ha
    cases a with
    | false =>
      cases h
      exact ⟨ns, bs, hns⟩
    | true =>
      obtain ⟨ns', bs', hns'⟩ := hy m' b m h
      exact ⟨ns ++ ns', bs ++ bs', checkNames_append hns hns'⟩
  orElse {x y _ _} hx hy memo b m h := by
    obtain ⟨a, m', ha, h⟩ := Check.bind_on_eq_ok.1 h
    obtain ⟨ns, bs, hns⟩ := hx memo a m' ha
    cases a with
    | false =>
      obtain ⟨ns', bs', hns'⟩ := hy m' b m h
      exact ⟨ns ++ ns', bs ++ bs', checkNames_append hns hns'⟩
    | true =>
      cases h
      exact ⟨ns, bs, hns⟩

theorem leavesRow_check (book : Rulebook) (held : Inventory) (r : Requirement) :
    LeavesRow book held (book.check held r) := by
  have hname : ∀ n ∈ r.references, LeavesRow book held (book.checkName held n) :=
    fun n _ memo b m h => ⟨[n], [b], checkNames_singleton h⟩
  -- there is no other way to answer here, so any will do
  exact @Lifts.evaluate_same Check Id _ _ _ (lifts_leavesRow book held) _ (fun _ => pure false) held r hname

/-- Asks for some names in turn, and then for a last one. The others come with a flag, so where the flag is not held
only the last one counts. -/
def Requirement.inTurn (f : Name) (ns : List Name) (n : Name) : Requirement :=
  .expression ⟨ns.map (fun k => ⟨[some (.reference k), some (.flag f)], List.cons_ne_nil _ _⟩) ++ [.ofNames n []],
    List.append_ne_nil_of_right_ne_nil _ (List.cons_ne_nil _ _)⟩

variable {f : Name}

theorem holds_inTurn (hf : .flag f ∉ held) (ns : List Name) (n : Name) (v : Name → Bool) :
    (Requirement.inTurn f ns n).holds held v = v n := by
  have hothers : ∀ k ∈ ns, Clause.holds held v ⟨[some (.reference k), some (.flag f)], List.cons_ne_nil _ _⟩ = false :=
    fun k _ => by simp [Clause.holds, Atom.holds, hf]
  have hlast : Clause.holds held v (.ofNames n []) = v n := by simp [Clause.holds, Clause.ofNames, Atom.holds]
  show List.any (_ ++ _) _ = _
  rw [List.any_append, List.any_map, List.any_eq_false.2 (by simpa using hothers), Bool.false_or, List.any_cons,
    List.any_nil, Bool.or_false, hlast]

theorem on_inTurn (hf : .flag f ∉ held) (hns : (book.checkNames held ns).on memo = (.ok bs, m))
    (hn : (book.checkName held n).on m = (.ok b, m')) :
    (book.check held (.inTurn f ns n)).on memo = (.ok b, m') := by
  show (evaluateClauses held (book.checkName held) (_ ++ _)).on memo = _
  induction ns generalizing memo bs with
  | nil =>
    cases hns
    exact on_last hn
  | cons k ns ih =>
    obtain ⟨c, cs, m₁, rfl, hk, hns⟩ := checkNames_cons_eq_ok.1 hns
    have hclause : (evaluateTerms held (book.checkName held) [some (.reference k), some (.flag f)]).on memo =
        (.ok false, m₁) := by
      refine Check.bind_on_eq_ok.2 ⟨c, m₁, hk, ?_⟩
      cases c with
      | false => rfl
      | true =>
        refine Check.bind_on_eq_ok.2 ⟨false, m₁, ?_, rfl⟩
        show (pure (decide (.flag f ∈ held)) : Check Bool).on m₁ = _
        rw [decide_eq_false hf]
        rfl
    exact Check.bind_on_eq_ok.2 ⟨false, m₁, hclause, ih hns⟩

/-! ## Complete rulebooks -/

/-- Where the rulebook is complete, the answer for a name after a row of others says whether the name is grounded. -/
theorem eq_groundedNames_of_complete (h : book.Complete) (hns : (book.checkNames held ns).on ∅ = (.ok bs, m))
    (hn : (book.checkName held n).on m = (.ok b, m')) : b = book.groundedNames held n := by
  obtain ⟨f, hf⟩ := exists_fresh_flag held.toList
  have hrun : ((book.check held (.inTurn f ns n)).on ∅).1 = .ok b := congrArg Prod.fst (on_inTurn hf hns hn)
  have hgrounded : book.Grounded held (.inTurn f ns n) ↔ book.groundedNames held n = true := by
    rw [Rulebook.grounded_iff_holds, holds_inTurn hf]
  cases b with
  | false => exact (Bool.eq_false_iff.2 fun hyes => h held _ hrun (hgrounded.2 hyes)).symm
  | true => exact (hgrounded.1 ((check_sound .empty _).1 hrun)).symm

theorem checkNames_of_complete (h : book.Complete) (hbefore : (book.checkNames held ns').on ∅ = (.ok bs', memo))
    (hns : (book.checkNames held ns).on memo = (.ok bs, m)) : bs = ns.map (book.groundedNames held) := by
  induction ns generalizing ns' bs' memo bs with
  | nil =>
    cases hns
    rfl
  | cons n ns ih =>
    obtain ⟨b, cs, m₁, rfl, hn, hrest⟩ := checkNames_cons_eq_ok.1 hns
    have hb := eq_groundedNames_of_complete h hbefore hn
    have hcs := ih (checkNames_append hbefore (checkNames_singleton hn)) hrest
    rw [List.map_cons, ← hb, ← hcs]

end

end Progression
