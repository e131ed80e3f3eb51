import Progression.Proofs.Evaluation.Invariant
import Progression.Proofs.Requirement.Valuation

/-!
# Plain evaluation

The plain way to decide a requirement keeps nothing in mind: it goes from left to right, no further than needed, and
decides a name by deciding its requirement, as often as the name comes up. On a cycle this does not end, so plain
evaluation has a depth, the number of names it decides inside each other before it gives up. Where no cycle can be
reached it comes to an end at some depth, and checking with a memo answers the same or stops at the same name
(`check_eq_plain`). So there a bound name goes by the answers that the names in its requirement give when each of them
is asked first (`checkName_of_bound`).
-/

namespace Progression

/-- What plain evaluation comes to: an answer, a name that means nothing, or no end. -/
abbrev Plain (α : Type) := ExceptT Name Option α

namespace Plain

section

variable (held : Inventory) (ask : Name → Plain Bool)

def atom : Atom → Plain Bool
  | .item id => return .item id ∈ held
  | .flag name => return .flag name ∈ held
  | .literal value => return value
  | .reference n => ask n

/-- Some clause must hold, and of a clause all terms but placeholders. -/
def requirementWith : Requirement → Plain Bool
  | .free => return true
  | .atom a => atom held ask a
  | .expression e => e.clauses.anyM fun c => (c.terms.filterMap id).allM (atom held ask)

end

variable (book : Rulebook) (held : Inventory)

/-- A rule says what the settings say, a bound name what its requirement says. -/
def name : Nat → Name → Plain Bool
  | 0, _ => ExceptT.mk none
  | depth + 1, n =>
    match book.settings.rule? n with
    | some rule => return book.settings.value rule
    | none =>
      match book.definitions.get? n with
      | some r => requirementWith held (name depth) r
      | none => if !book.settings.glitches && n ∈ book.glitchDefinitions then return false else throw n

def requirement (depth : Nat) (r : Requirement) : Plain Bool :=
  requirementWith held (name book held depth) r

variable {book held} {ask : Name → Plain Bool}

/-! ## The same walk -/

theorem atom_eq (a : Atom) : atom held ask a = a.evaluate held ask := by
  cases a <;> rfl

theorem allM_eq (ts : List (Option Atom)) : (ts.filterMap id).allM (atom held ask) = evaluateTerms held ask ts := by
  induction ts with
  | nil => rfl
  | cons t ts ih =>
    cases t with
    | none => exact ih
    | some a =>
      show (atom held ask a >>= fun b => _) = a.evaluate held ask >>= fun b => _
      rw [atom_eq]
      congr 1
      funext b
      cases b with
      | false => rfl
      | true => exact ih

theorem anyM_eq (cs : List Clause) :
    (cs.anyM fun c => (c.terms.filterMap id).allM (atom held ask)) = evaluateClauses held ask cs := by
  induction cs with
  | nil => rfl
  | cons c cs ih =>
    show ((c.terms.filterMap id).allM (atom held ask) >>= fun b => _) = evaluateTerms held ask c.terms >>= fun b => _
    rw [allM_eq]
    congr 1
    funext b
    cases b with
    | false => exact ih
    | true => rfl

theorem requirementWith_eq (r : Requirement) : requirementWith held ask r = r.evaluate held ask := by
  cases r with
  | free => rfl
  | atom a => exact atom_eq a
  | expression e => exact anyM_eq e.clauses

/-- Plain evaluation that comes to an answer, or to a name that means nothing. -/
def result {α : Type} (a : Except Name α) : Plain α := ExceptT.mk (some a)

theorem name_succ (book : Rulebook) (held : Inventory) (depth : Nat) (n : Name) :
    name book held (depth + 1) n =
      match book.meaning n with
      | .constant value => result (.ok value)
      | .undefined => result (.error n)
      | .token t => result (.ok (t ∈ held : Bool))
      | .bound r => r.evaluate held (name book held depth) := by
  rw [name]
  cases hrule : book.settings.rule? n with
  | some rule => rw [book.meaning_of_rule hrule]; rfl
  | none =>
    cases hget : book.definitions.get? n with
    | none =>
      rw [book.meaning_of_unbound hrule hget]
      by_cases h : (!book.settings.glitches && decide (n ∈ book.glitchDefinitions)) = true
      · simp only [h, if_true]; rfl
      · simp only [h]; rfl
    | some r =>
      rw [book.meaning_of_binding hrule hget]
      show requirementWith held (name book held depth) r = _
      rw [requirementWith_eq]
      rcases r with _ | (_ | _ | _ | _) | _ <;> rfl

/-! ## Deep enough -/

/-- At every depth from some depth on, evaluation comes to `a`. -/
def Eventually {α : Type} (a : Except Name α) (x : ReaderT Nat Plain α) : Prop :=
  ∃ k, ∀ depth ≥ k, x.run depth = result a

theorem Eventually.bind {α β : Type} {a : α} {b : Except Name β} {x : ReaderT Nat Plain α}
    {f : α → ReaderT Nat Plain β} (hx : Eventually (.ok a) x) (hf : Eventually b (f a)) : Eventually b (x >>= f) := by
  obtain ⟨k, hk⟩ := hx
  obtain ⟨l, hl⟩ := hf
  refine ⟨max k l, fun depth hdepth => ?_⟩
  rw [ReaderT.run_bind, hk depth (Nat.le_trans (Nat.le_max_left k l) hdepth)]
  exact hl depth (Nat.le_trans (Nat.le_max_right k l) hdepth)

theorem Eventually.bind_error {α β : Type} {n : Name} {x : ReaderT Nat Plain α} (f : α → ReaderT Nat Plain β)
    (hx : Eventually (.error n) x) : Eventually (.error n) (x >>= f) := by
  obtain ⟨k, hk⟩ := hx
  refine ⟨k, fun depth hdepth => ?_⟩
  rw [ReaderT.run_bind, hk depth hdepth]
  rfl

theorem eventually_pure {α : Type} (a : α) : Eventually (.ok a) (pure a : ReaderT Nat Plain α) :=
  ⟨0, fun _ _ => rfl⟩

theorem follows_eventually : Follows (Eventually (α := Bool)) where
  value := eventually_pure
  andThen hx hy := hx.bind hy
  andStop hx := hx.bind (eventually_pure false)
  andFail hx := hx.bind_error _
  orStop hx := hx.bind (eventually_pure true)
  orElse hx hy := hx.bind hy
  orFail hx := hx.bind_error _

/-- A name at every depth. -/
def nameAt (book : Rulebook) (held : Inventory) (n : Name) : ReaderT Nat Plain Bool :=
  fun depth => name book held depth n

theorem lifts_run (depth : Nat) : Lifts fun (x : ReaderT Nat Plain Bool) (y : Plain Bool) => x.run depth = y where
  value _ := rfl
  andThen := by
    rintro x y _ _ rfl rfl
    rw [ReaderT.run_bind]
    congr 1
    funext b
    cases b <;> rfl
  orElse := by
    rintro x y _ _ rfl rfl
    rw [ReaderT.run_bind]
    congr 1
    funext b
    cases b <;> rfl

/-- Evaluating at a depth is evaluating with the names at that depth. -/
theorem run_evaluate (ask : Name → ReaderT Nat Plain Bool) (r : Requirement) (depth : Nat) :
    (r.evaluate held ask).run depth = r.evaluate held fun n => (ask n).run depth :=
  (lifts_run depth).evaluate_same held r fun _ _ => rfl

theorem run_evaluate_nameAt (r : Requirement) (depth : Nat) :
    (r.evaluate held (nameAt book held)).run depth = requirement book held depth r :=
  (run_evaluate (nameAt book held) r depth).trans (requirementWith_eq r).symm

theorem eventually_result {α : Type} (a : Except Name α) : Eventually a fun _ => result a := ⟨0, fun _ _ => rfl⟩

/-- What takes one level more comes to the same. -/
theorem Eventually.succ {α : Type} {a : Except Name α} {x y : ReaderT Nat Plain α} (h : Eventually a x)
    (hxy : ∀ depth, y.run (depth + 1) = x.run depth) : Eventually a y := by
  obtain ⟨k, hk⟩ := h
  refine ⟨k + 1, fun depth hdepth => ?_⟩
  obtain ⟨d, rfl⟩ : ∃ d, depth = d + 1 := ⟨depth - 1, by omega⟩
  rw [hxy]
  exact hk d (by omega)

/-- Evaluation comes to one thing at most. -/
theorem Eventually.unique {α : Type} {a b : Except Name α} {x : ReaderT Nat Plain α} (ha : Eventually a x)
    (hb : Eventually b x) : a = b := by
  obtain ⟨k, hk⟩ := ha
  obtain ⟨l, hl⟩ := hb
  have hresult : result a = result b :=
    (hk (max k l) (Nat.le_max_left k l)).symm.trans (hl (max k l) (Nat.le_max_right k l))
  exact Option.some.inj hresult

theorem eventually_name {n : Name} {a : Except Name Bool} (h : ∀ depth, name book held (depth + 1) n = result a) :
    Eventually a (nameAt book held n) :=
  (eventually_result a).succ h

/-- A name that is opened takes one level more than its requirement. -/
theorem eventually_name_of_bound {n : Name} {r : Requirement} {a : Except Name Bool} (hmean : book.meaning n = .bound r)
    (h : Eventually a (r.evaluate held (nameAt book held))) : Eventually a (nameAt book held n) := by
  refine h.succ fun depth => ?_
  show name book held (depth + 1) n = _
  rw [name_succ, hmean, run_evaluate]
  rfl

/-- Where names come to answers, both joints come to what they make of them. -/
theorem lifts_eventually : Lifts fun (x : ReaderT Nat Plain Bool) (b : Id Bool) => Eventually (.ok b.run) x where
  value := eventually_pure
  andThen {x y b c} hx hy := by
    cases b using Bool.rec with
    | false => exact hx.bind (eventually_pure false)
    | true => exact hx.bind hy
  orElse {x y b c} hx hy := by
    cases b using Bool.rec with
    | false => exact hx.bind hy
    | true => exact hx.bind (eventually_pure true)

/-- Where the names that a requirement mentions come to answers, it comes to whether it holds under them. -/
theorem eventually_evaluate {v : Name → Bool} {r : Requirement}
    (h : ∀ k ∈ r.references, Eventually (.ok (v k)) (nameAt book held k)) :
    Eventually (.ok (r.holds held v)) (r.evaluate held (nameAt book held)) := by
  have hholds : Eventually (.ok (Id.run (r.evaluate held fun n => pure (v n)))) (r.evaluate held (nameAt book held)) :=
    lifts_eventually.evaluate_same held r h
  rwa [Requirement.evaluate_pure] at hholds

end Plain

/-! ## Agreement -/

section

variable {book : Rulebook} {held : Inventory}

/-- A settled name answers as plain evaluation does, and no names are marked but those of a set. -/
def Faithful (book : Rulebook) (held : Inventory) : (Name → Prop) → Memo → Prop :=
  Records fun n b => Plain.Eventually (.ok b) (Plain.nameAt book held n)

/-- Below an acyclic requirement names answer as plain evaluation does, as long as all open names lead to the name
that is asked for: if it were marked, it would lead back to itself. -/
theorem settles_plain (held : Inventory) {root : Requirement} (hacyclic : book.definitions.Acyclic root) :
    Settles book held (fun opened n k => k = n ∨ opened k)
      (fun opened n => book.definitions.Reaches root n ∧ LeadTo book opened n)
      (Faithful book held) (fun _ _ => True) Plain.Eventually (fun _ => Plain.nameAt book held) where
  follows := Plain.follows_eventually
  constant {opened n b} _ hmean := Plain.eventually_name fun depth => by rw [Plain.name_succ, hmean]
  undefined {opened n memo} _ _ hmean :=
    ⟨Plain.eventually_name fun depth => by rw [Plain.name_succ, hmean], trivial⟩
  known {opened n memo y} hn hmemo hget := by
    cases y with
    | inProgress => exact absurd (hn.2 n (hmemo.marked hget)) (hacyclic n hn.1)
    | settled b => exact hmemo.settled hget
  token {opened n memo t} _ hmemo hmean _ := by
    have hname : Plain.Eventually (.ok (t ∈ held : Bool)) (Plain.nameAt book held n) :=
      Plain.eventually_name fun depth => by rw [Plain.name_succ, hmean]
    exact ⟨hname, (hmemo.mono fun _ => .inr).settle hname⟩
  mark {opened n memo r} hn hmemo hmean _ := by
    refine ⟨hmemo.mark n, fun k hk => ?_⟩
    exact ⟨hn.1.tail (book.refers_of_meaning_bound hmean hk), hn.2.mark hmean hk⟩
  settle {opened n m r b} _ hmean hm hbody := by
    have hname := Plain.eventually_name_of_bound hmean hbody
    exact ⟨hname, hm.settle hname⟩
  stop {opened n m r e} _ hmean _ hbody := ⟨Plain.eventually_name_of_bound hmean hbody, trivial⟩

/-- A bound name from which no cycle can be reached answers whether its requirement holds under the answers that the
names in it give when they are asked first. -/
theorem checkName_of_bound {n : Name} {r : Requirement} {v : Name → Bool} (hmean : book.meaning n = .bound r)
    (hacyclic : book.definitions.Acyclic r)
    (h : ∀ k ∈ r.references, ((book.checkName held k).on ∅).1 = .ok (v k)) :
    ((book.checkName held n).on ∅).1 = .ok (r.holds held v) := by
  have hroot : book.definitions.Acyclic (.atom (.reference n)) :=
    hacyclic.reference (Rulebook.get?_of_meaning_bound hmean)
  have hplain : ∀ k, book.definitions.Reaches (.atom (.reference n)) k →
      Plain.Eventually ((book.checkName held k).on ∅).1 (Plain.nameAt book held k) := fun k hk =>
    ((settles_plain held hroot).checkName ⟨hk, leadTo_none book k⟩ ∅ .empty).1
  have hn : book.definitions.Reaches (.atom (.reference n)) n :=
    Definitions.reaches_of_mem (List.mem_singleton_self n)
  have hbody := Plain.eventually_evaluate fun k hk =>
    h k hk ▸ hplain k (hn.tail (book.refers_of_meaning_bound hmean hk))
  exact (hplain n hn).unique (Plain.eventually_name_of_bound hmean hbody)

/-- Where no cycle of references can be reached, plain evaluation comes to an end if it is deep enough, and checking
with a memo comes to the same: the same answer, or the same name that means nothing. -/
theorem check_eq_plain (book : Rulebook) (held : Inventory) (r : Requirement)
    (hacyclic : book.definitions.Acyclic r) :
    ∃ k, ∀ depth ≥ k, Plain.requirement book held depth r = Plain.result ((book.check held r).on ∅).1 := by
  have hcheck := (settles_plain held hacyclic).check fun n hn =>
    ⟨Definitions.reaches_of_mem hn, leadTo_none book n⟩
  obtain ⟨k, hk⟩ := (hcheck ∅ .empty).1
  refine ⟨k, fun depth hdepth => ?_⟩
  rw [← Plain.run_evaluate_nameAt]
  exact hk depth hdepth

/-- Two ways to one name; the second one also asks for a name that means nothing. -/
def diamond : Rulebook where
  definitions := .ofList [("base", .atom (.item 1)), ("left", .atom (.reference "base")),
    ("right", .ofClauses (.ofNames "base" ["missing"]) [])]
  glitchDefinitions := ∅
  settings := .default

/-- Asks for both ways, with a placeholder in between. -/
def bothWays : Requirement :=
  .ofClauses ⟨[some (.reference "left"), none, some (.reference "right")], List.cons_ne_nil _ _⟩ []

theorem acyclic_diamond (r : Requirement) : diamond.definitions.Acyclic r :=
  Definitions.acyclic_of_rank (fun n => if n ∈ ["left", "right"] then 1 else 0) (by decide) r

theorem check_eq_plain_diamond :
    diamond.definitions.Acyclic bothWays ∧ ∃ k, ∀ depth ≥ k,
      Plain.requirement diamond (.ofList [.item 1]) depth bothWays = Plain.result (.error "missing") := by
  have hanswer : ((diamond.check (.ofList [.item 1]) bothWays).on ∅).1 = .error "missing" := rfl
  rw [← hanswer]
  exact ⟨acyclic_diamond bothWays, check_eq_plain diamond (.ofList [.item 1]) bothWays (acyclic_diamond bothWays)⟩

end

end Progression
