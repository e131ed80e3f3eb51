import Mathlib.Data.Finset.Preimage
import Mathlib.Data.Fintype.EquivFin
import Progression.Proofs.Evaluation.Completeness
import Progression.Proofs.Evaluation.Relevance

/-!
# Requirements that a token spoils

A spoiled name makes a requirement that one more token turns from met into unmet. The requirement asks for the name,
but before that, and only with the token, for what spoils it (`gate`). The token must be one that nothing else mentions
(`exists_fresh_flag`).
-/

namespace Progression

/-- The clauses of a requirement as an expression. -/
def Requirement.clauses : Requirement → List Clause
  | free => [⟨[none], List.cons_ne_nil _ _⟩]
  | atom a => [⟨[some a], List.cons_ne_nil _ _⟩]
  | expression e => e.clauses

/-- The clause that also asks for a flag, before anything else. -/
def Clause.guard (f : Name) (c : Clause) : Clause := ⟨some (.flag f) :: c.terms, List.cons_ne_nil _ _⟩

/-- Asks for `r`, but only if the flag is held, and then for the name. -/
def gate (f : Name) (r : Requirement) (k : Name) : Requirement :=
  .expression ⟨r.clauses.map (Clause.guard f) ++ [.ofNames k []],
    List.append_ne_nil_of_right_ne_nil _ (List.cons_ne_nil _ _)⟩

section

variable {held : Inventory} {ask : Name → Check Bool} {memo m : Memo} {f k : Name} {b : Bool}

theorem on_clauses {r : Requirement} (h : (r.evaluate held ask).on memo = (.ok false, m)) :
    (evaluateClauses held ask r.clauses).on memo = (.ok false, m) := by
  cases r with
  | free => cases h
  | atom a =>
    show (do if ← (do if ← a.evaluate held ask then pure true else pure false) then pure true else pure false :
      Check Bool).on memo = _
    rw [Check.on_bind, Check.on_bind, show (a.evaluate held ask).on memo = _ from h]
    rfl
  | expression e => exact h

/-- Without the flag guarded clauses are passed over, and the memo stays. -/
theorem on_guard_of_notMem (hf : .flag f ∉ held) (cs ds : List Clause) :
    (evaluateClauses held ask (cs.map (Clause.guard f) ++ ds)).on memo = (evaluateClauses held ask ds).on memo := by
  induction cs with
  | nil => rfl
  | cons c cs ih =>
    have hc : (evaluateTerms held ask (c.guard f).terms).on memo = (.ok false, memo) := by
      show (do if ← (pure (decide (.flag f ∈ held)) : Check Bool) then _ else pure false : Check Bool).on memo = _
      rw [decide_eq_false hf]
      rfl
    show (do if ← evaluateTerms held ask (c.guard f).terms then _ else _ : Check Bool).on memo = _
    rw [Check.on_bind, hc]
    exact ih

/-- With the flag guarded clauses are as good as the clauses. -/
theorem on_guard_of_mem (hf : .flag f ∈ held) (cs ds : List Clause)
    (h : (evaluateClauses held ask cs).on memo = (.ok false, m)) :
    (evaluateClauses held ask (cs.map (Clause.guard f) ++ ds)).on memo = (evaluateClauses held ask ds).on m := by
  induction cs generalizing memo with
  | nil =>
    obtain rfl : memo = m := congrArg Prod.snd h
    rfl
  | cons c cs ih =>
    have hc : (evaluateTerms held ask (c.guard f).terms).on memo = (evaluateTerms held ask c.terms).on memo := by
      show (do if ← (pure (decide (.flag f ∈ held)) : Check Bool) then _ else pure false : Check Bool).on memo = _
      rw [decide_eq_true hf]
      rfl
    show (do if ← evaluateTerms held ask (c.guard f).terms then _ else _ : Check Bool).on memo = _
    rw [show evaluateClauses held ask (c :: cs) = (do
      if ← evaluateTerms held ask c.terms then return true else evaluateClauses held ask cs) from rfl,
      Check.on_bind] at h
    rw [Check.on_bind, hc]
    rcases hrun : (evaluateTerms held ask c.terms).on memo with ⟨e | (_ | _), m'⟩ <;> rw [hrun] at h
    · cases h
    · exact ih h
    · cases h

theorem on_last (ask_k : (ask k).on memo = (.ok b, m)) :
    (evaluateClauses held ask [.ofNames k []]).on memo = (.ok b, m) := by
  show (do if ← (do if ← ask k then pure true else pure false) then pure true else pure false :
    Check Bool).on memo = _
  rw [Check.on_bind, Check.on_bind, ask_k]
  cases b <;> rfl

end

/-! ## Fresh flags -/

theorem exists_fresh_flag (ts : List Token) : ∃ f, Token.flag f ∉ ts := by
  have hflag : Function.Injective Token.flag := fun _ _ h => Token.flag.inj h
  obtain ⟨f, hf⟩ := Infinite.exists_notMem_finset (ts.toFinset.preimage Token.flag hflag.injOn)
  refine ⟨f, fun h => hf ?_⟩
  rw [Finset.mem_preimage, List.mem_toFinset]
  exact h

/-- A token that neither the definitions nor the requirement mention makes no difference. -/
theorem check_add_of_fresh {book : Rulebook} {held : Inventory} {r : Requirement} {t : Token}
    (hdefs : ∀ n r', book.definitions.get? n = some r' → t ∉ r'.tokens) (hr : t ∉ r.tokens) :
    book.check (held.add t) r = book.check held r := by
  have hne {u : Token} {r' : Requirement} (hu : u ∈ r'.tokens) (ht : t ∉ r'.tokens) : u ∈ held.add t ↔ u ∈ held := by
    rw [Inventory.mem_add]
    exact or_iff_right fun h => ht (h ▸ hu)
  have hagree : Agree book book (held.add t) held fun _ => True := {
    meaning := fun _ => rfl
    token := fun {n u} _ hmean => by
      obtain ⟨r', hget, hu⟩ := Rulebook.get?_of_meaning_token hmean
      exact hne hu (hdefs n r' hget)
    mentioned := fun {n r'} _ hmean u hu => hne hu (hdefs n r' (Rulebook.get?_of_meaning_bound hmean))
    referred := fun _ _ _ _ => trivial }
  exact hagree.check_eq (fun u hu => hne hu hr) fun _ _ => trivial

/-- Where a rulebook is closed but not complete, some requirement is met, but no longer with one more token. -/
theorem exists_gate {book : Rulebook} (hclosed : book.Closed) (h : ¬ book.Complete) :
    ∃ held t r, ((book.check held r).on ∅).1 = .ok true ∧ ((book.check (held.add t) r).on ∅).1 = .ok false := by
  obtain ⟨held, r, m, k, hrun, hk, hrecall⟩ := exists_spoiled hclosed h
  obtain ⟨f, hf⟩ := exists_fresh_flag (held.toList ++ r.tokens ++ book.definitions.values.flatMap Requirement.tokens)
  have hheld : .flag f ∉ held := fun h => hf (by simp [h])
  have hr : .flag f ∉ r.tokens := fun h => hf (by simp [h])
  have hdefs : ∀ n r', book.definitions.get? n = some r' → .flag f ∉ r'.tokens := by
    intro n r' hget h
    refine hf (List.mem_append_right _ (List.mem_flatMap.2 ⟨r', ?_, h⟩))
    exact List.mem_map.2 ⟨(n, r'), Table.get?_eq_some_iff.1 hget, rfl⟩
  refine ⟨held, .flag f, gate f r k, ?_, ?_⟩
  · -- without the flag nothing spoils the name
    have hlast : (book.checkName held k).on ∅ = (.ok true, ((book.checkName held k).on ∅).2) :=
      Prod.ext (firstMet_eq_true.1 hk) rfl
    show ((evaluateClauses held (book.checkName held) (r.clauses.map (Clause.guard f) ++ _)).on ∅).1 = _
    rw [on_guard_of_notMem hheld, on_last hlast]
  · rw [← check_add_of_fresh hdefs hr] at hrun
    have hlast : (book.checkName (held.add (.flag f)) k).on m = (.ok false, m) := checkName_of_recall hrecall
    show ((evaluateClauses _ (book.checkName (held.add (.flag f))) (r.clauses.map (Clause.guard f) ++ _)).on ∅).1 = _
    rw [on_guard_of_mem (by simp) _ _ (on_clauses hrun), on_last hlast]

end Progression
