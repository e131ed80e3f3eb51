import Progression.Proofs.Evaluation.Run
import Progression.Proofs.Failing
import Progression.Session.Reachability

/-!
# Answers of queries

A query answers without regard to its log, step by step (`Query.answer_bind`, `Query.answer_filterM`). Whether a
location is accessible comes down to two requirements, each checked with an empty memo (`Session.first`,
`Session.checkEntry_eq_ok_true`). The accessible locations can be listed if every location can be checked, and then
they are those that are accessible (`Session.accessible_eq_ok`).
-/

namespace Progression

/-! ## Filtering -/

section

variable {m : Type → Type} [Monad m] [LawfulMonad m] {α : Type}

theorem filterAuxM_eq (f : α → m Bool) (l acc : List α) :
    List.filterAuxM f l acc = do return (← List.filterAuxM f l []) ++ acc := by
  induction l generalizing acc with
  | nil => simp [List.filterAuxM]
  | cons a l ih =>
    unfold List.filterAuxM
    rw [bind_assoc]
    congr 1
    funext b
    rw [ih, ih (cond b [a] [])]
    cases b <;> simp

theorem filterM_cons (f : α → m Bool) (a : α) (l : List α) :
    (a :: l).filterM f = do
      let b ← f a
      let l' ← l.filterM f
      return if b then a :: l' else l' := by
  unfold List.filterM
  rw [List.filterAuxM, bind_assoc]
  congr 1
  funext b
  rw [filterAuxM_eq]
  cases b <;> simp

/-- Filtering comes to an end if every test does, and then keeps what passes. -/
theorem filterM_eq_ok {ε : Type} {f : α → Except ε Bool} {l l' : List α} :
    l.filterM f = .ok l' ↔ (∀ a ∈ l, ∃ b, f a = .ok b) ∧ l' = l.filter fun a => affirmed (f a) := by
  induction l generalizing l' with
  | nil =>
    constructor
    · intro h
      exact ⟨fun a ha => absurd ha List.not_mem_nil, (Except.ok.inj h).symm⟩
    · rintro ⟨-, rfl⟩
      rfl
  | cons a l ih =>
    rw [filterM_cons, bind_eq_ok, List.forall_mem_cons, List.filter_cons]
    constructor
    · rintro ⟨b, hb, h⟩
      obtain ⟨t, ht, h'⟩ := bind_eq_ok.1 h
      obtain ⟨hall, rfl⟩ := ih.1 ht
      refine ⟨⟨⟨b, hb⟩, hall⟩, ?_⟩
      rw [hb]
      exact (Except.ok.inj h').symm
    · rintro ⟨⟨⟨b, hb⟩, hall⟩, rfl⟩
      refine ⟨b, hb, bind_eq_ok.2 ⟨_, ih.2 ⟨hall, rfl⟩, ?_⟩⟩
      rw [hb]
      rfl

/-- A failure that a list comes to when its elements are tested one by one: all elements before the one that fails can
be tested. -/
def FirstFailure {ε : Type} (f : α → Except ε Bool) (l : List α) (e : ε) : Prop :=
  ∃ before a after, l = before ++ a :: after ∧ (∀ c ∈ before, ∃ b, f c = .ok b) ∧ f a = .error e

theorem firstFailure_cons {ε : Type} {f : α → Except ε Bool} {a : α} {l : List α} {e : ε} :
    FirstFailure f (a :: l) e ↔ f a = .error e ∨ (∃ b, f a = .ok b) ∧ FirstFailure f l e := by
  constructor
  · rintro ⟨before, c, after, h, hbefore, hc⟩
    cases before with
    | nil =>
      obtain ⟨rfl, rfl⟩ := List.cons.inj h
      exact .inl hc
    | cons d before =>
      obtain ⟨rfl, rfl⟩ := List.cons.inj h
      obtain ⟨ha, hbefore⟩ := List.forall_mem_cons.1 hbefore
      exact .inr ⟨ha, before, c, after, rfl, hbefore, hc⟩
  · rintro (h | ⟨ha, before, c, after, rfl, hbefore, hc⟩)
    · exact ⟨[], a, l, rfl, fun _ hmem => absurd hmem List.not_mem_nil, h⟩
    · exact ⟨a :: before, c, after, rfl, List.forall_mem_cons.2 ⟨ha, hbefore⟩, hc⟩

/-- Filtering fails with the first failure. -/
theorem filterM_eq_error {ε : Type} {f : α → Except ε Bool} {l : List α} {e : ε} :
    l.filterM f = .error e ↔ FirstFailure f l e := by
  induction l with
  | nil =>
    constructor
    · intro h
      cases h
    · rintro ⟨before, a, after, h, -⟩
      simp at h
  | cons a l ih =>
    rw [filterM_cons, firstFailure_cons, ← ih]
    cases f a with
    | error e' =>
      constructor
      · intro h
        cases h
        exact .inl rfl
      · rintro (h | ⟨⟨b, hb⟩, -⟩)
        · cases h
          rfl
        · cases hb
    | ok b =>
      have hrest : (Except.ok b : Except ε Bool) ≠ .error e := nofun
      rw [or_iff_right hrest, and_iff_right ⟨b, rfl⟩]
      -- what comes after the tests of the others does not fail
      rcases l.filterM f with e' | l'
      · exact Iff.rfl
      · exact ⟨nofun, nofun⟩

/-- Testing what is read off the elements is testing the elements. -/
theorem filterM_map {β : Type} {f : β → α} {g : α → m Bool} {p : β → m Bool} {l : List β}
    (h : ∀ b ∈ l, g (f b) = p b) : (l.map f).filterM g = do return (← l.filterM p).map f := by
  induction l with
  | nil => simp [List.filterM, List.filterAuxM]
  | cons b l ih =>
    obtain ⟨hb, hl⟩ := List.forall_mem_cons.1 h
    rw [List.map_cons, filterM_cons, filterM_cons, hb, ih hl]
    simp only [bind_assoc, pure_bind]
    congr 1
    funext c
    congr 1
    funext l'
    cases c <;> rfl

end

/-! ## Queries -/

namespace Query

variable {α β : Type}

theorem answer_bind (q : Query α) (f : α → Query β) : (q >>= f).answer = q.answer >>= fun a => (f a).answer := by
  show (Logged.bind q.run (ExceptT.bindCont f)).value = _
  unfold answer
  rw [Logged.bind]
  rcases q.run.value with e | a <;> rfl

theorem answer_within (c : Context) (q : Query α) : (Query.within c q).answer = Progression.within c q.answer := rfl

theorem answer_ofExcept (x : Except Failure α) : (ofExcept x).answer = x := rfl

theorem answer_ofCheck (c : Check α) :
    (ofCheck c).answer = (c.on ∅).1.mapError fun n => .ofCause (.undefinedName n) := rfl

theorem answer_filterM (f : α → Query Bool) (l : List α) :
    (l.filterM f).answer = l.filterM fun a => (f a).answer := by
  induction l with
  | nil => rfl
  | cons a l ih =>
    rw [filterM_cons, filterM_cons, answer_bind]
    congr 1
    funext b
    rw [answer_bind, ih]
    rfl

/-- Writing events one after another comes to an end. -/
theorem answer_forIn_tell (e : α → Event) (l : List α) :
    (forIn l PUnit.unit fun a _ => do
      tell (e a)
      return ForInStep.yield PUnit.unit).answer = .ok PUnit.unit := by
  induction l with
  | nil => rfl
  | cons a l ih =>
    rw [List.forIn_cons, answer_bind]
    exact ih

end Query

/-! ## Locations -/

namespace Session

/-- The answer for a requirement that is asked first. -/
def first (s : Session) (r : Requirement) : Except Name Bool :=
  ((s.rulebook.check s.inventory r).on ∅).1

variable {s : Session} {b : Bool}

theorem checkRequirement_eq_ok {r : Requirement} : (s.checkRequirement r).answer = .ok b ↔ s.first r = .ok b := by
  rw [checkRequirement, Query.answer_ofCheck]
  exact mapError_eq_ok

/-- What a location itself asks for is only checked if what its room asks for holds. -/
theorem checkEntry_eq_ok {e : LocationKey × Place} :
    (s.checkEntry e).answer = .ok b ↔
      s.first e.2.room = .ok true ∧ s.first e.2.entity = .ok b ∨ s.first e.2.room = .ok false ∧ b = false := by
  unfold checkEntry checkPlace
  rw [Query.answer_within, within_eq_ok, Query.answer_bind, bind_eq_ok]
  constructor
  · rintro ⟨a, ha, h⟩
    cases a with
    | false => exact .inr ⟨checkRequirement_eq_ok.1 ha, (Except.ok.inj h).symm⟩
    | true => exact .inl ⟨checkRequirement_eq_ok.1 ha, checkRequirement_eq_ok.1 h⟩
  · rintro (⟨hroom, h⟩ | ⟨hroom, rfl⟩)
    · exact ⟨true, checkRequirement_eq_ok.2 hroom, checkRequirement_eq_ok.2 h⟩
    · exact ⟨false, checkRequirement_eq_ok.2 hroom, rfl⟩

theorem checkEntry_eq_ok_true {e : LocationKey × Place} :
    (s.checkEntry e).answer = .ok true ↔ s.first e.2.room = .ok true ∧ s.first e.2.entity = .ok true := by
  rw [checkEntry_eq_ok]
  exact or_iff_left fun h => Bool.false_ne_true h.2.symm

theorem isAccessible_of_mem {e : LocationKey × Place} (he : e ∈ s.world.places.entries) :
    s.isAccessible e.1 = s.checkEntry e := by
  unfold isAccessible
  rw [Table.get?_eq_some_iff.2 he]

theorem filterM_checkEntry_eq_ok {es : List (LocationKey × Place)} {keys : List LocationKey} :
    (do return (← es.filterM s.checkEntry).map Prod.fst : Query (List LocationKey)).answer = .ok keys ↔
      (∀ e ∈ es, ∃ b, (s.checkEntry e).answer = .ok b) ∧
        keys = (es.filter fun e => affirmed (s.checkEntry e).answer).map Prod.fst := by
  rw [Query.answer_bind, bind_eq_ok, Query.answer_filterM]
  constructor
  · rintro ⟨l, hl, h⟩
    obtain ⟨hall, rfl⟩ := filterM_eq_ok.1 hl
    exact ⟨hall, (Except.ok.inj h).symm⟩
  · rintro ⟨hall, rfl⟩
    exact ⟨_, filterM_eq_ok.2 ⟨hall, rfl⟩, rfl⟩

/-- The accessible locations can be listed if every location can be checked. -/
theorem accessible_eq_ok {keys : List LocationKey} :
    s.accessible.answer = .ok keys ↔
      (∀ e ∈ s.world.places.entries, ∃ b, (s.checkEntry e).answer = .ok b) ∧
        keys = (s.world.places.entries.filter fun e => affirmed (s.checkEntry e).answer).map Prod.fst :=
  filterM_checkEntry_eq_ok

end Session

end Progression
