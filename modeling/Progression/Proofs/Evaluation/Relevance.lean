import Progression.Proofs.Evaluation.Opening

/-!
# What answers depend on

The answer for a name depends on what the name means, on the tokens its requirement mentions, and on the names its
requirement refers to, in the same way. Two rulebooks and inventories that agree on all of this decide the name alike,
log and all (`Agree.checkName_eq`, `Agree.check_eq`).
-/

namespace Progression

/-- The tokens that a requirement mentions. -/
def Requirement.tokens (r : Requirement) : List Token := r.atoms.filterMap Atom.token?

theorem Meaning.mem_tokens_of_ofRequirement {r : Requirement} {t : Token} (h : ofRequirement r = .token t) :
    t ∈ r.tokens := by
  rcases r with _ | (_ | _ | _ | _) | _ <;> cases h <;> exact List.mem_cons_self

/-- Only a binding makes a name stand for a token. -/
theorem Rulebook.get?_of_meaning_token {book : Rulebook} {n : Name} {t : Token} (h : book.meaning n = .token t) :
    ∃ r, book.definitions.get? n = some r ∧ t ∈ r.tokens := by
  cases hrule : book.settings.rule? n with
  | some rule => rw [meaning_of_rule hrule] at h; cases h
  | none =>
    cases hget : book.definitions.get? n with
    | some r =>
      rw [meaning_of_binding hrule hget] at h
      exact ⟨r, rfl, Meaning.mem_tokens_of_ofRequirement h⟩
    | none =>
      rw [meaning_of_unbound hrule hget] at h
      split at h <;> cases h

/-- Two rulebooks and inventories that make no difference for names in `A`, which is closed under references. -/
structure Agree (book book' : Rulebook) (held held' : Inventory) (A : Name → Prop) : Prop where
  meaning {n : Name} : A n → book.meaning n = book'.meaning n
  token {n : Name} {t : Token} : A n → book.meaning n = .token t → (t ∈ held ↔ t ∈ held')
  mentioned {n : Name} {r : Requirement} : A n → book.meaning n = .bound r → ∀ t ∈ r.tokens, (t ∈ held ↔ t ∈ held')
  referred {n : Name} {r : Requirement} : A n → book.meaning n = .bound r → ∀ k ∈ r.references, A k

section

variable {m : Type → Type} [Monad m]

theorem lifts_eq : Lifts fun c d : m Bool => c = d where
  value _ := rfl
  andThen := by rintro x y _ _ rfl rfl; rfl
  orElse := by rintro x y _ _ rfl rfl; rfl

theorem evaluate_congr {held held' : Inventory} {ask ask' : Name → m Bool} {r : Requirement}
    (htokens : ∀ t ∈ r.tokens, (t ∈ held ↔ t ∈ held')) (hask : ∀ n ∈ r.references, ask n = ask' n) :
    r.evaluate held ask = r.evaluate held' ask' := by
  refine lifts_eq.evaluate (fun a ha t ht => ?_) hask
  rw [decide_eq_decide.2 (htokens t (List.mem_filterMap.2 ⟨a, ha, ht⟩))]

end

namespace Agree

variable {book book' : Rulebook} {held held' : Inventory} {A : Name → Prop} (h : Agree book book' held held' A)
include h

theorem askNameWith_eq {o o' : Requirement → Check Bool} {n : Name} (hn : A n)
    (ho : ∀ r, book.meaning n = .bound r → o r = o' r) :
    askNameWith book held o n = askNameWith book' held' o' n := by
  unfold askNameWith
  rw [← h.meaning hn]
  cases hmean : book.meaning n with
  | constant value => rfl
  | undefined => rfl
  | token t => simp only [decide_eq_decide.2 (h.token hn hmean)]
  | bound r => simp only [ho r hmean]

theorem askName_eq (k : Nat) {n : Name} (hn : A n) : askName book held k n = askName book' held' k n := by
  induction k generalizing n with
  | zero => exact h.askNameWith_eq hn fun _ _ => rfl
  | succ k ih =>
    refine h.askNameWith_eq hn fun r hmean => ?_
    exact evaluate_congr (h.mentioned hn hmean) fun j hj => ih (h.referred hn hmean j hj)

/-- The two may bind different numbers of names; a budget that covers both makes up for it. -/
theorem checkName_eq {n : Name} (hn : A n) : book.checkName held n = book'.checkName held' n := by
  funext memo
  have hleft := Nat.le_max_left book.definitions.size book'.definitions.size
  have hright := Nat.le_max_right book.definitions.size book'.definitions.size
  calc (book.checkName held n).run.run memo
      = (askName book held (max book.definitions.size book'.definitions.size) n).run.run memo :=
        (askName_agreeWithin book held hleft n memo (book.unopened_le_size memo)).1
    _ = (askName book' held' (max book.definitions.size book'.definitions.size) n).run.run memo := by
        rw [h.askName_eq _ hn]
    _ = (book'.checkName held' n).run.run memo :=
        (askName_agreeWithin book' held' hright n memo (book'.unopened_le_size memo)).1.symm

theorem check_eq {r : Requirement} (htokens : ∀ t ∈ r.tokens, (t ∈ held ↔ t ∈ held'))
    (hnames : ∀ n ∈ r.references, A n) : book.check held r = book'.check held' r :=
  evaluate_congr htokens fun n hn => h.checkName_eq (hnames n hn)

end Agree

end Progression
