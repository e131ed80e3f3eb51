import Progression.Evaluation

/-!
# Requirements under a valuation

A valuation says which names hold. Under it a requirement holds or does not, with nothing to keep in mind: an
expression holds if some clause does, and a clause if all its terms do. Evaluation comes to just this when names are
decided by a valuation (`Requirement.evaluate_pure`). No requirement can tell that something is missing, so more names
or more tokens never make it fail (`Requirement.holds_mono`).
-/

namespace Progression

section

variable (held : Inventory) (v : Name → Bool)

/-- Whether an atom holds with what is held, where names hold as `v` says. -/
def Atom.holds : Atom → Bool
  | item id => .item id ∈ held
  | flag name => .flag name ∈ held
  | literal value => value
  | reference n => v n

def Clause.holds (c : Clause) : Bool := c.terms.all fun t => t.all (Atom.holds held v)

def Requirement.holds : Requirement → Bool
  | free => true
  | atom a => a.holds held v
  | expression e => e.clauses.any (Clause.holds held v)

end

/-- The clause that asks for some names. -/
def Clause.ofNames (n : Name) (ns : List Name) : Clause :=
  ⟨some (.reference n) :: ns.map fun k => some (.reference k), List.cons_ne_nil _ _⟩

/-- The requirement that asks for one of some clauses. -/
def Requirement.ofClauses (c : Clause) (cs : List Clause) : Requirement :=
  .expression ⟨c :: cs, List.cons_ne_nil _ _⟩

section

variable {held held' : Inventory} {v w : Name → Bool}

theorem Clause.holds_iff {c : Clause} : c.holds held v = true ↔ ∀ a, some a ∈ c.terms → a.holds held v = true := by
  unfold holds
  rw [List.all_eq_true]
  constructor
  · exact fun h a ha => h _ ha
  · intro h t ht
    cases t with
    | none => rfl
    | some a => exact h a ht

theorem Requirement.holds_expression {e : Expression} :
    (expression e).holds held v = true ↔ ∃ c ∈ e.clauses, ∀ a, some a ∈ c.terms → a.holds held v = true := by
  show e.clauses.any (Clause.holds held v) = true ↔ _
  simp only [List.any_eq_true, Clause.holds_iff]

/-- A requirement for some names holds if they all do. -/
theorem Requirement.holds_allOf {ns : List String} :
    (allOf ns).holds held v = true ↔ ∀ n ∈ ns, v (Name.ofText n) = true := by
  cases ns with
  | nil => exact iff_of_true rfl fun _ hn => absurd hn List.not_mem_nil
  | cons n ns =>
    unfold allOf
    rw [holds_expression]
    simp [Atom.holds]

/-! ## Evaluation -/

section

variable {m : Type → Type} [Monad m]

theorem Atom.evaluate_pure (a : Atom) : a.evaluate held (fun n => (pure (v n) : m Bool)) = pure (a.holds held v) := by
  cases a <;> rfl

variable [LawfulMonad m]

theorem evaluateTerms_pure (ts : List (Option Atom)) :
    evaluateTerms held (fun n => (pure (v n) : m Bool)) ts = pure (ts.all fun t => t.all (Atom.holds held v)) := by
  induction ts with
  | nil => rfl
  | cons t ts ih =>
    cases t with
    | none => exact ih
    | some a => cases ha : a.holds held v <;> simp [evaluateTerms, Atom.evaluate_pure, ih, ha]

theorem evaluateClauses_pure (cs : List Clause) :
    evaluateClauses held (fun n => (pure (v n) : m Bool)) cs = pure (cs.any (Clause.holds held v)) := by
  induction cs with
  | nil => rfl
  | cons c cs ih =>
    have hc : evaluateTerms held (fun n => (pure (v n) : m Bool)) c.terms = pure (c.holds held v) :=
      evaluateTerms_pure c.terms
    cases h : c.holds held v <;> simp [evaluateClauses, hc, ih, h]

/-- Where names are decided by a valuation, evaluation says whether the requirement holds under it. -/
theorem Requirement.evaluate_pure (r : Requirement) :
    r.evaluate held (fun n => (pure (v n) : m Bool)) = pure (r.holds held v) := by
  cases r with
  | free => rfl
  | atom a => exact a.evaluate_pure
  | expression e => exact evaluateClauses_pure e.clauses

end

/-! ## More names and more tokens -/

theorem Atom.holds_mono {a : Atom} (hheld : ∀ t ∈ held, t ∈ held')
    (hv : ∀ n, a.reference? = some n → v n = true → w n = true) (h : a.holds held v = true) :
    a.holds held' w = true := by
  cases a with
  | item id => exact decide_eq_true (hheld _ (of_decide_eq_true h))
  | flag name => exact decide_eq_true (hheld _ (of_decide_eq_true h))
  | literal value => exact h
  | reference n => exact hv n rfl h

/-- What holds still holds with more tokens and with more names. -/
theorem Requirement.holds_mono {r : Requirement} (hheld : ∀ t ∈ held, t ∈ held')
    (hv : ∀ n ∈ r.references, v n = true → w n = true) (h : r.holds held v = true) : r.holds held' w = true := by
  have hatom : ∀ a ∈ r.atoms, a.holds held v = true → a.holds held' w = true := fun a ha =>
    Atom.holds_mono hheld fun n hn => hv n (List.mem_filterMap.2 ⟨a, ha, hn⟩)
  cases r with
  | free => rfl
  | atom a => exact hatom a List.mem_cons_self h
  | expression e =>
    obtain ⟨c, hc, hterms⟩ := holds_expression.1 h
    refine holds_expression.2 ⟨c, hc, fun a ha => hatom a ?_ (hterms a ha)⟩
    exact List.mem_flatMap.2 ⟨c, hc, List.mem_filterMap.2 ⟨some a, ha, rfl⟩⟩

end

end Progression
