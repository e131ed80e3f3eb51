import Progression.Evaluation

/-!
# Runs of a check

A check is run on a memo: it answers or stops at a name, and leaves a memo either way (`Check.on`). Evaluating a
requirement only joins the answers for its atoms by "and then" and "or else". So whatever relation between two ways
to answer these two joints keep, evaluation keeps as well (`Lifts.evaluate`): this one lemma is the induction over
requirements for everything that is proved about names.
-/

namespace Progression

/-- Whether an answer came and is "yes". -/
def affirmed {ε : Type} : Except ε Bool → Bool
  | .ok b => b
  | .error _ => false

@[simp] theorem affirmed_eq_true {ε : Type} {a : Except ε Bool} : affirmed a = true ↔ a = .ok true := by
  rcases a with e | (_ | _) <;> simp [affirmed]

/-! ## Running with a state -/

section

variable {ε σ α β : Type}

theorem run_bind {m : Type → Type} [Monad m] (c : ExceptT ε (StateT σ m) α) (f : α → ExceptT ε (StateT σ m) β)
    (s : σ) : (c >>= f).run.run s = (c.run.run s >>= fun p =>
      match p.1 with
      | .ok a => (f a).run.run p.2
      | .error e => pure (.error e, p.2)) := by
  show StateT.bind (c.run) (ExceptT.bindCont f) s = _
  unfold StateT.bind
  congr 1
  funext p
  rcases p with ⟨e | a, s'⟩ <;> rfl

theorem value_run_bind (c : ExceptT ε (StateT σ Logged) α) (f : α → ExceptT ε (StateT σ Logged) β) (s : σ) :
    ((c >>= f).run.run s).value = match (c.run.run s).value with
      | (.ok a, s') => ((f a).run.run s').value
      | (.error e, s') => (.error e, s') := by
  rw [run_bind, Logged.value_bind]
  rcases (c.run.run s).value with ⟨e | a, s'⟩ <;> rfl

end

namespace Check

variable {α β : Type}

/-- What a check answers on a memo, and the memo after it. -/
def on (c : Check α) (memo : Memo) : Except Name α × Memo := (c.run.run memo).value

@[simp] theorem on_pure (a : α) (memo : Memo) : (pure a : Check α).on memo = (.ok a, memo) := rfl

theorem on_bind (c : Check α) (f : α → Check β) (memo : Memo) :
    (c >>= f).on memo = match c.on memo with
      | (.ok a, m) => (f a).on m
      | (.error n, m) => (.error n, m) := by
  rw [on, value_run_bind, on]
  rcases (c.run.run memo).value with ⟨n | a, m⟩ <;> rfl

theorem on_eq_ok {c : Check α} {memo : Memo} {a : α} : (c.on memo).1 = .ok a ↔ ∃ m, c.on memo = (.ok a, m) :=
  ⟨fun h => ⟨(c.on memo).2, Prod.ext h rfl⟩, fun ⟨_, h⟩ => congrArg Prod.fst h⟩

theorem bind_on_eq_ok {c : Check α} {f : α → Check β} {memo m : Memo} {b : β} :
    (c >>= f).on memo = (.ok b, m) ↔ ∃ a m', c.on memo = (.ok a, m') ∧ (f a).on m' = (.ok b, m) := by
  rw [on_bind]
  rcases c.on memo with ⟨n | a, m'⟩
  · exact ⟨nofun, fun ⟨_, _, h, _⟩ => by cases h⟩
  · exact ⟨fun h => ⟨a, m', rfl, h⟩, fun ⟨_, _, ha, h⟩ => by cases ha; exact h⟩

@[simp] theorem on_tell (e : Event) (memo : Memo) : (tell e).on memo = (.ok (), memo) := rfl

@[simp] theorem on_lookUp (n : Name) (memo : Memo) : (lookUp n).on memo = (.ok (memo.get? n), memo) := rfl

@[simp] theorem on_note (n : Name) (x : Resolution) (memo : Memo) :
    (note n x).on memo = (.ok (), memo.set n x) := rfl

end Check

/-! ## Relations that evaluation keeps -/

section

variable {m m' : Type → Type} [Monad m] [Monad m']

/-- A relation between two ways to answer that "and then" and "or else" keep. -/
structure Lifts (R : m Bool → m' Bool → Prop) : Prop where
  value (b : Bool) : R (pure b) (pure b)
  andThen {x y : m Bool} {x' y' : m' Bool} : R x x' → R y y' →
    R (do if ← x then y else return false) (do if ← x' then y' else return false)
  orElse {x y : m Bool} {x' y' : m' Bool} : R x x' → R y y' →
    R (do if ← x then return true else y) (do if ← x' then return true else y')

namespace Lifts

variable {R : m Bool → m' Bool → Prop} (hR : Lifts R) {held held' : Inventory}
  {ask : Name → m Bool} {ask' : Name → m' Bool}
include hR

theorem atom {a : Atom}
    (htoken : ∀ t, a.token? = some t → R (pure (t ∈ held : Bool)) (pure (t ∈ held' : Bool)))
    (hask : ∀ n, a.reference? = some n → R (ask n) (ask' n)) :
    R (a.evaluate held ask) (a.evaluate held' ask') := by
  cases a with
  | item id => exact htoken _ rfl
  | flag name => exact htoken _ rfl
  | literal value => exact hR.value value
  | reference name => exact hask _ rfl

theorem terms {ts : List (Option Atom)}
    (h : ∀ a ∈ ts.filterMap id, R (a.evaluate held ask) (a.evaluate held' ask')) :
    R (evaluateTerms held ask ts) (evaluateTerms held' ask' ts) := by
  induction ts with
  | nil => exact hR.value true
  | cons t ts ih =>
    cases t with
    | none => exact ih h
    | some a => exact hR.andThen (h a (by simp)) (ih fun b hb => h b (List.mem_cons_of_mem a hb))

theorem clauses {cs : List Clause}
    (h : ∀ c ∈ cs, R (evaluateTerms held ask c.terms) (evaluateTerms held' ask' c.terms)) :
    R (evaluateClauses held ask cs) (evaluateClauses held' ask' cs) := by
  induction cs with
  | nil => exact hR.value false
  | cons c cs ih =>
    exact hR.orElse (h c List.mem_cons_self) (ih fun d hd => h d (List.mem_cons_of_mem c hd))

/-- A relation that holds of the answers for the tokens and the names of a requirement holds of the requirement. -/
theorem evaluate {r : Requirement}
    (htoken : ∀ a ∈ r.atoms, ∀ t, a.token? = some t → R (pure (t ∈ held : Bool)) (pure (t ∈ held' : Bool)))
    (hask : ∀ n ∈ r.references, R (ask n) (ask' n)) :
    R (r.evaluate held ask) (r.evaluate held' ask') := by
  have hatom : ∀ a ∈ r.atoms, R (a.evaluate held ask) (a.evaluate held' ask') := fun a ha =>
    hR.atom (htoken a ha) fun n hn => hask n (List.mem_filterMap.2 ⟨a, ha, hn⟩)
  cases r with
  | free => exact hR.value true
  | atom a => exact hatom a List.mem_cons_self
  | expression e =>
    refine hR.clauses fun c hc => hR.terms fun a ha => hatom a ?_
    exact List.mem_flatMap.2 ⟨c, hc, ha⟩

/-- The same with one inventory on both sides. -/
theorem evaluate_same (held : Inventory) (r : Requirement) (hask : ∀ n ∈ r.references, R (ask n) (ask' n)) :
    R (r.evaluate held ask) (r.evaluate held ask') :=
  hR.evaluate (fun _ _ _ _ => hR.value _) hask

end Lifts

end

end Progression
