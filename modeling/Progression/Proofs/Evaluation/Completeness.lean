import Progression.Proofs.Evaluation.Coherence
import Progression.Proofs.Evaluation.Soundness

/-!
# Completeness

On cycles an answer may be "no" although what is asked for can be derived: a name that is decided while another one is
open may be settled too early. A rulebook is complete if this never happens to a requirement that is asked first. It is
complete if no name leads back to itself by way of another name (`complete_of_onlySelfLoops`). Where a rulebook is not
complete, asking spoils some name: asked first it is answered "yes", asked later "no" (`exists_spoiled`).
-/

namespace Progression

/-- A requirement that is grounded is never answered "no" when it is asked first. -/
def Rulebook.Complete (book : Rulebook) : Prop :=
  ∀ held r, ((book.check held r).on ∅).1 = .ok false → ¬ book.Grounded held r

/-- Every name that a definition refers to means something. -/
def Rulebook.Closed (book : Rulebook) : Prop :=
  ∀ n r, book.definitions.get? n = some r → ∀ k ∈ r.references, book.meaning k ≠ .undefined

section

variable {book : Rulebook} {held : Inventory} {n : Name} {r : Requirement}

/-! ## Closed rulebooks always answer -/

theorem settles_answers (held : Inventory) (h : book.Closed) :
    Settles book held (fun (_ : Unit) _ => ()) (fun _ n => book.meaning n ≠ .undefined) (fun _ _ => True)
      (fun _ _ => True) (fun a (_ : Id Bool) => ∃ b, a = .ok b) (fun _ _ => false) where
  follows := follows_of_ok fun b => ⟨b, rfl⟩
  constant _ _ := ⟨_, rfl⟩
  undefined hn _ hmean := absurd hmean hn
  known _ _ _ := ⟨_, rfl⟩
  token _ _ _ _ := ⟨⟨_, rfl⟩, trivial⟩
  mark _ _ hmean _ := ⟨trivial, h _ _ (Rulebook.get?_of_meaning_bound hmean)⟩
  settle _ _ _ _ := ⟨⟨_, rfl⟩, trivial⟩
  stop _ _ _ hbody := ⟨hbody, trivial⟩

/-- In a closed rulebook a name that means something is answered, on every memo. -/
theorem exists_checkName (h : book.Closed) (hn : book.meaning n ≠ .undefined) (held : Inventory) (memo : Memo) :
    ∃ b, ((book.checkName held n).on memo).1 = .ok b :=
  ((settles_answers held h).checkName (c := ()) hn memo trivial).1

/-- And so is a requirement whose names mean something. -/
theorem exists_answer (h : book.Closed) (hr : ∀ k ∈ r.references, book.meaning k ≠ .undefined) (held : Inventory)
    (memo : Memo) : ∃ b, ((book.check held r).on memo).1 = .ok b :=
  ((settles_answers held h).check (c := ()) hr memo trivial).1

/-! ## Leaving grounded names out -/

/-- Among grounded names that a valuation leaves out, one is bound to a requirement that holds under the valuation. -/
theorem exists_left_out {v : Name → Bool} (hv : ∀ k, v k = true → book.groundedNames held k = true)
    (hgranted : ∀ k, book.Granted k → v k = true) (hn : book.groundedNames held n = true) (hout : v n = false) :
    ∃ z r, book.settings.rule? z = none ∧ book.definitions.get? z = some r ∧ r.holds held v = true ∧
      book.groundedNames held z = true ∧ v z = false := by
  refine Classical.byContradiction fun hnone => ?_
  have hclosed : ∀ z r, (book.settings.rule? z = none ∧ book.definitions.get? z = some r) → r.holds held v = true →
      v z = true := by
    rintro z r ⟨hrule, hget⟩ hr
    refine Classical.byContradiction fun hz => hnone ⟨z, r, hrule, hget, hr, ?_, Bool.eq_false_iff.2 hz⟩
    refine Rulebook.groundedNames_eq_true.2 (.bound ⟨hrule, hget⟩ (derives_of_holds (fun k hk => ?_) hr))
    exact Rulebook.groundedNames_eq_true.1 (hv k hk)
  have hholds : v n = true := (Rulebook.groundedNames_eq_true.1 hn).holds_of_closed hgranted hclosed
  rw [hout] at hholds
  cases hholds

/-- What grounds a name is grounded without that name. -/
theorem holds_without (hmean : book.meaning n = .bound r) (hn : book.groundedNames held n = true) :
    r.holds held (fun k => k ≠ n && book.groundedNames held k) = true := by
  have hgranted : ∀ k, book.Granted k → (k ≠ n && book.groundedNames held k) = true := by
    intro k hk
    have hk' : book.groundedNames held k = true := Rulebook.groundedNames_eq_true.2 (.granted hk)
    have hne : k ≠ n := by
      rintro rfl
      obtain ⟨rule, hrule, -⟩ := hk
      rw [Rulebook.meaning_of_rule hrule] at hmean
      cases hmean
    simp [hk', hne]
  obtain ⟨z, r', -, hget, hr', hz, hout⟩ :=
    exists_left_out (fun k hk => (Bool.and_eq_true_iff.1 hk).2) hgranted hn (by simp)
  have hzn : z = n := by simpa [hz] using hout
  rw [hzn, Rulebook.get?_of_meaning_bound hmean] at hget
  rw [Option.some.inj hget]
  exact hr'

/-! ## Names that only lead back to themselves directly -/

theorem follows_denied : Follows fun (a : Except Name Bool) (x : Id Bool) => a = .ok false → x = false where
  value b h := by cases h; rfl
  andThen {a x y} hx hy h := by
    obtain rfl := hy h
    cases x <;> rfl
  andStop hx _ := by
    obtain rfl := hx rfl
    rfl
  andFail _ := nofun
  orStop _ := nofun
  orElse hx hy h := by
    obtain rfl := hx rfl
    exact hy h
  orFail _ := nofun

/-- The names that the memo denies are not grounded, and no names are marked but those of a set. -/
def CompleteMemo (book : Rulebook) (held : Inventory) : (Name → Prop) → Memo → Prop :=
  Records fun n b => b = false → book.groundedNames held n = false

/-- The grounded names but for open ones. -/
noncomputable def groundedBut (book : Rulebook) (held : Inventory) (opened : Name → Prop) (n : Name) : Bool :=
  open Classical in decide (¬ opened n) && book.groundedNames held n

/-- A name whose requirement is denied while names that lead to it are open is not grounded: none of these names but
itself can come up there, for it would lead to the name and back. -/
theorem groundedNames_eq_false_of_leadTo {opened : Name → Prop} (hloops : book.definitions.OnlySelfLoops)
    (hn : LeadTo book opened n) (hmean : book.meaning n = .bound r)
    (hno : r.holds held (groundedBut book held fun k => k = n ∨ opened k) = false) :
    book.groundedNames held n = false := by
  refine Bool.eq_false_iff.2 fun hgrounded => Bool.false_ne_true (hno.symm.trans ?_)
  refine Requirement.holds_mono (fun _ => id) (fun k hk hholds => ?_) (holds_without hmean hgrounded)
  obtain ⟨hne, hk'⟩ := Bool.and_eq_true_iff.1 hholds
  have hnk : book.definitions.Refers n k := book.refers_of_meaning_bound hmean hk
  have hopened : ¬ (k = n ∨ opened k) := by
    rintro (h | h)
    · exact of_decide_eq_true hne h
    · exact of_decide_eq_true hne (hloops n k (.single hnk) (hn k h)).symm
  simp [groundedBut, hopened, hk']

theorem settles_complete (held : Inventory) (hloops : book.definitions.OnlySelfLoops) :
    Settles book held (fun opened n k => k = n ∨ opened k) (LeadTo book) (CompleteMemo book held) (fun _ _ => True)
      (fun a (x : Id Bool) => a = .ok false → x = false) (groundedBut book held) where
  follows := follows_denied
  constant {opened n b} _ hmean h := by
    cases h
    have hn : ¬ book.groundedNames held n = true := (Rulebook.groundedNames_of_meaning hmean).not.2 Bool.false_ne_true
    simp [groundedBut, hn]
  undefined _ _ _ := ⟨nofun, trivial⟩
  known {opened n memo y} _ hmemo hget h := by
    cases y with
    | inProgress => simp [groundedBut, hmemo.marked hget]
    | settled b =>
      cases h
      simp [groundedBut, hmemo.settled hget]
  token {opened n memo t} _ hmemo hmean _ := by
    have hn : decide (t ∈ held) = false → book.groundedNames held n = false := fun h =>
      Bool.eq_false_iff.2 fun hn => of_decide_eq_false h ((Rulebook.groundedNames_of_meaning hmean).1 hn)
    refine ⟨fun h => by simp [groundedBut, hn (Except.ok.inj h)], ?_⟩
    exact (hmemo.mono fun _ => .inr).settle hn
  mark {opened n memo r} hn hmemo hmean _ := ⟨hmemo.mark n, fun _ hk => hn.mark hmean hk⟩
  settle {opened n m r b} hn hmean hm hbody := by
    have hdenied : b = false → book.groundedNames held n = false := by
      rintro rfl
      exact groundedNames_eq_false_of_leadTo hloops hn hmean ((Requirement.evaluate_pure r).symm.trans (hbody rfl))
    exact ⟨fun h => by simp [groundedBut, hdenied (Except.ok.inj h)], hm.settle hdenied⟩
  stop _ _ _ _ := ⟨nofun, trivial⟩

/-- A rulebook in which no name leads back to itself by way of another name is complete. -/
theorem complete_of_onlySelfLoops (h : book.definitions.OnlySelfLoops) : book.Complete := by
  intro held r hno hgrounded
  have hcheck := (settles_complete held h).check fun n (_ : n ∈ r.references) => leadTo_none book n
  have hfalse : r.holds held (groundedBut book held fun _ => False) = false :=
    (Requirement.evaluate_pure r).symm.trans ((hcheck ∅ .empty).1 hno)
  refine Bool.false_ne_true (hfalse.symm.trans (Requirement.holds_mono (fun _ => id) (fun k _ hk => ?_)
    (Rulebook.grounded_iff_holds.1 hgrounded)))
  simp [groundedBut, hk]

/-! ## Spoiled names -/

theorem recall_set_of_ne {memo : Memo} {k : Name} {y : Resolution} (h : k ≠ n) :
    book.recall (memo.set n y) k = book.recall memo k := by
  unfold Rulebook.recall
  rw [Table.get?_set, if_neg h]

theorem recall_of_granted {memo : Memo} (h : book.Granted n) : book.recall memo n = some true := by
  obtain ⟨rule, hrule, hvalue⟩ := h
  rw [Rulebook.recall, Rulebook.meaning_of_rule hrule, hvalue]

/-- Whether a name is answered "yes" when it is asked first. -/
def Rulebook.firstMet (book : Rulebook) (held : Inventory) (n : Name) : Bool :=
  affirmed ((book.checkName held n).on ∅).1

theorem firstMet_eq_true : book.firstMet held n = true ↔ ((book.checkName held n).on ∅).1 = .ok true :=
  affirmed_eq_true

/-- A name that is not answered "yes" although names that are would ground it spoils one of these. -/
theorem exists_spoiled_of_not_firstMet (hclosed : book.Closed)
    (hr : book.definitions.get? n = some r)
    (hholds : r.holds held (fun k => book.firstMet held k && book.groundedNames held k) = true)
    (hgrounded : book.groundedNames held n = true) (hn : book.firstMet held n = false) :
    ∃ m k, (book.checkName held n).on ∅ = (.ok false, m) ∧ book.firstMet held k = true ∧
      book.recall m k = some false := by
  have hno : ((book.checkName held n).on ∅).1 ≠ .ok true := fun h => by simp [firstMet_eq_true.2 h] at hn
  have hstep := book.checkName_step held n ∅
  have hsupports : ∀ m, book.meaning n = m → book.Supports held m := fun m hm =>
    (Rulebook.groundedNames_of_meaning hm).1 hgrounded
  generalize (book.checkName held n).on ∅ = p at hstep hno ⊢
  cases hstep with
  | constant hmean =>
    obtain rfl := hsupports _ hmean
    exact absurd rfl hno
  | undefined hmean => exact (hsupports _ hmean).elim
  | known hmean hget => simp at hget
  | @token t hmean hget =>
    have ht : t ∈ held := hsupports _ hmean
    exact absurd (congrArg Except.ok (decide_eq_true ht)) hno
  | @opened r' met m hmean hget hbody =>
    obtain rfl : met = false := Bool.eq_false_iff.2 fun h => hno (congrArg _ h)
    obtain rfl : r = r' := Option.some.inj (hr.symm.trans (Rulebook.get?_of_meaning_bound hmean))
    obtain ⟨k, -, hk, hrecall⟩ := exists_recall_false hbody hholds
    obtain ⟨hfirst, -⟩ := Bool.and_eq_true_iff.1 hk
    have hkn : k ≠ n := by
      rintro rfl
      rw [hfirst] at hn
      cases hn
    exact ⟨_, k, rfl, hfirst, by rw [recall_set_of_ne hkn, hrecall]⟩
  | @stopped r' e m hmean hget hbody =>
    obtain ⟨b, hb⟩ := exists_answer hclosed (hclosed n r' (Rulebook.get?_of_meaning_bound hmean)) held
      ((∅ : Memo).set n .inProgress)
    rw [hbody] at hb
    cases hb

/-- Where a rulebook is not complete, some requirement is answered "no" and leaves a name denied that would have been
answered "yes" at first. -/
theorem exists_spoiled (hclosed : book.Closed) (h : ¬ book.Complete) :
    ∃ held r m k, (book.check held r).on ∅ = (.ok false, m) ∧ book.firstMet held k = true ∧
      book.recall m k = some false := by
  obtain ⟨held, r, hno, hgrounded⟩ : ∃ held r, ((book.check held r).on ∅).1 = .ok false ∧ book.Grounded held r := by
    simpa [Rulebook.Complete] using h
  have hrun : (book.check held r).on ∅ = (.ok false, ((book.check held r).on ∅).2) := Prod.ext hno rfl
  by_cases hfirst : ∀ k, book.groundedNames held k = true → book.firstMet held k = true
  · obtain ⟨k, -, hk, hrecall⟩ := exists_recall_false hrun (Rulebook.grounded_iff_holds.1 hgrounded)
    exact ⟨held, r, _, k, hrun, hfirst k hk, hrecall⟩
  · obtain ⟨n, hn⟩ := Classical.not_forall.1 hfirst
    obtain ⟨hn, hnot⟩ := Classical.not_imp.1 hn
    have hgranted : ∀ k, book.Granted k → (book.firstMet held k && book.groundedNames held k) = true := by
      intro k hk
      have hyes : book.firstMet held k = true :=
        firstMet_eq_true.2 (congrArg Prod.fst (checkName_of_recall (recall_of_granted hk)))
      have hk' : book.groundedNames held k = true := Rulebook.groundedNames_eq_true.2 (.granted hk)
      simp [hyes, hk']
    obtain ⟨z, r', -, hget, hr', hz, hout⟩ :=
      exists_left_out (fun k hk => (Bool.and_eq_true_iff.1 hk).2) hgranted hn (by simp [hnot])
    obtain ⟨m, k, hrun, hk, hrecall⟩ :=
      exists_spoiled_of_not_firstMet hclosed hget hr' hz (by simpa [hz] using hout)
    exact ⟨held, .atom (.reference z), m, k, hrun, hk, hrecall⟩

end

end Progression
