import Progression.Proofs.Evaluation.Invariant
import Progression.Proofs.Evaluation.Questions
import Progression.Proofs.Requirement.Derivation

/-!
# Soundness

Definitions may refer to each other in cycles, and answers found while a name is open stay in the memo. Still, nothing
is ever granted on circular support alone: whatever was asked before, and whether or not it was answered, a question
is answered "yes" only if it can be derived (`derivable_of_answer`). The invariant is that every name that the memo
says is met can be derived.
-/

namespace Progression

/-! ## What can be derived -/

namespace Rulebook

section

variable (book : Rulebook) (held : Inventory)

/-- A rule that the settings affirm. -/
def Granted (n : Name) : Prop := ∃ rule, book.settings.rule? n = some rule ∧ book.settings.value rule = true

/-- What can be derived with what is held from the rules and the definitions. -/
def Derivable : Requirement → Prop :=
  Derives held book.Granted fun n r => book.definitions.get? n = some r

/-- The same where a definition counts only if no rule comes before it. -/
def Grounded : Requirement → Prop :=
  Derives held book.Granted fun n r => book.settings.rule? n = none ∧ book.definitions.get? n = some r

/-- Whether a name with this meaning is grounded. -/
def Supports : Meaning → Prop
  | .constant b => b = true
  | .token t => t ∈ held
  | .bound r => book.Grounded held r
  | .undefined => False

/-- The valuation under which exactly the grounded names hold. -/
noncomputable def groundedNames : Name → Bool :=
  derivableNames held book.Granted fun n r => book.settings.rule? n = none ∧ book.definitions.get? n = some r

end

variable {book : Rulebook} {held held' : Inventory} {r : Requirement} {n : Name}

theorem Grounded.derivable (h : book.Grounded held r) : book.Derivable held r :=
  h.mono (fun _ => id) (fun _ => id) fun _ _ hn => hn.2

/-- More tokens never make less grounded. -/
theorem Grounded.mono (hheld : ∀ t ∈ held, t ∈ held') (h : book.Grounded held r) : book.Grounded held' r :=
  Derives.mono hheld (fun _ => id) (fun _ _ => id) h

theorem groundedNames_eq_true : book.groundedNames held n = true ↔ book.Grounded held (.atom (.reference n)) :=
  derivableNames_eq_true

theorem grounded_iff_holds : book.Grounded held r ↔ r.holds held (book.groundedNames held) = true :=
  derives_iff_holds

theorem supports_ofRequirement (r : Requirement) :
    book.Supports held (.ofRequirement r) ↔ book.Grounded held r := by
  rcases r with _ | (id | name | b | n) | e
  · exact Iff.rfl
  · exact ⟨.item, fun h => by cases h; assumption⟩
  · exact ⟨.flag, fun h => by cases h; assumption⟩
  · exact ⟨by rintro rfl; exact .literal, fun h => by cases h; rfl⟩
  · exact Iff.rfl
  · exact Iff.rfl

/-- Whether a name is grounded goes by what it means. -/
theorem supports_meaning (n : Name) :
    book.Supports held (book.meaning n) ↔ book.Grounded held (.atom (.reference n)) := by
  unfold Grounded
  rw [derives_reference_iff]
  cases hrule : book.settings.rule? n with
  | some rule =>
    rw [meaning_of_rule hrule]
    constructor
    · exact fun h => .inl ⟨rule, hrule, h⟩
    · rintro (⟨rule', hrule', h⟩ | ⟨r, ⟨hnone, -⟩, -⟩)
      · obtain rfl : rule = rule' := Option.some.inj (hrule.symm.trans hrule')
        exact h
      · cases hnone
  | none =>
    have hgranted : ¬ book.Granted n := fun ⟨rule, h, _⟩ => by rw [hrule] at h; cases h
    cases hget : book.definitions.get? n with
    | none =>
      have hsupports : ¬ book.Supports held (book.meaning n) := by
        rw [meaning_of_unbound hrule hget]
        split
        · exact Bool.false_ne_true
        · exact id
      refine iff_of_false hsupports ?_
      rintro (h | ⟨r, ⟨-, h⟩, -⟩)
      · exact hgranted h
      · cases h
    | some r =>
      rw [meaning_of_binding hrule hget, supports_ofRequirement]
      constructor
      · exact fun h => .inr ⟨r, ⟨rfl, rfl⟩, h⟩
      · rintro (h | ⟨r', ⟨-, h⟩, hr⟩)
        · exact absurd h hgranted
        · obtain rfl : r = r' := Option.some.inj h
          exact hr

theorem groundedNames_of_meaning {m : Meaning} (hmean : book.meaning n = m) :
    book.groundedNames held n = true ↔ book.Supports held m := by
  rw [groundedNames_eq_true, ← supports_meaning, hmean]

end Rulebook

/-! ## The invariant -/

section

variable {book : Rulebook} {held : Inventory}

theorem follows_imp : Follows fun (a : Except Name Bool) (x : Id Bool) => a = .ok true → x = true where
  value b h := by cases h; rfl
  andThen hx hy h := by
    obtain rfl := hx rfl
    exact hy h
  andStop _ := nofun
  andFail _ := nofun
  orStop hx _ := by
    obtain rfl := hx rfl
    rfl
  orElse {a x y} hx hy h := by
    obtain rfl := hy h
    cases x <;> rfl
  orFail _ := nofun

/-- Every name that the memo says is met is grounded. -/
def SoundMemo (book : Rulebook) (held : Inventory) : Memo → Prop :=
  Records (fun n b => b = true → book.groundedNames held n = true) fun _ => True

theorem settles_sound (book : Rulebook) (held : Inventory) :
    Settles book held (fun (_ : Unit) _ => ()) (fun _ _ => True) (fun _ => SoundMemo book held)
      (fun _ => SoundMemo book held) (fun a (x : Id Bool) => a = .ok true → x = true)
      (fun _ => book.groundedNames held) where
  follows := follows_imp
  constant _ hmean h := by
    cases h
    exact (Rulebook.groundedNames_of_meaning hmean).2 rfl
  undefined _ hmemo _ := ⟨nofun, hmemo⟩
  known {_ n memo y} _ hmemo hget h := by
    cases y with
    | inProgress => cases h
    | settled b =>
      cases h
      exact hmemo.settled hget rfl
  token {_ n memo t} _ hmemo hmean _ := by
    have htrue : t ∈ held → book.groundedNames held n = true := (Rulebook.groundedNames_of_meaning hmean).2
    refine ⟨fun h => htrue (of_decide_eq_true (Except.ok.inj h)), (hmemo.mono fun _ => .inr).settle fun h => ?_⟩
    exact htrue (of_decide_eq_true h)
  mark {_ n memo r} _ hmemo _ _ := ⟨(hmemo.mark n).mono fun _ _ => trivial, fun _ _ => trivial⟩
  settle {_ n m r b} _ hmean hm hbody := by
    have htrue : b = true → book.groundedNames held n = true := by
      rintro rfl
      refine (Rulebook.groundedNames_of_meaning hmean).2 (Rulebook.grounded_iff_holds.2 ?_)
      exact (Requirement.evaluate_pure r).symm.trans (hbody rfl)
    exact ⟨fun h => htrue (Except.ok.inj h), (hm.mono fun _ => .inr).settle htrue⟩
  stop _ _ hm _ := ⟨nofun, hm⟩

/-- On a sound memo a requirement is answered "yes" only if it is grounded, and the memo stays sound. -/
theorem check_sound {memo : Memo} (h : SoundMemo book held memo) (r : Requirement) :
    (((book.check held r).on memo).1 = .ok true → book.Grounded held r) ∧
      SoundMemo book held ((book.check held r).on memo).2 := by
  have hcheck := (settles_sound book held).check (c := ()) fun n (_ : n ∈ r.references) => trivial
  obtain ⟨hyes, hmemo⟩ := hcheck memo h
  refine ⟨fun h => ?_, ?_⟩
  · exact Rulebook.grounded_iff_holds.2 ((Requirement.evaluate_pure r).symm.trans (hyes h))
  · split at hmemo <;> exact hmemo

theorem soundMemo_memoAfter (book : Rulebook) (held : Inventory) (qs : List Question) :
    SoundMemo book held (book.memoAfter held qs) := by
  refine Rulebook.memoAfter_induction .empty (fun q memo h => ?_) qs
  rw [Rulebook.ask_eq]
  exact (check_sound h q.asked).2

theorem grounded_of_answerAfter (qs : List Question) (q : Question) (h : book.answerAfter held qs q = .ok true) :
    book.Grounded held q.asked := by
  unfold Rulebook.answerAfter at h
  rw [Rulebook.ask_eq] at h
  exact (check_sound (soundMemo_memoAfter book held qs) q.asked).1 h

/-- Whatever was asked before, a question is answered "yes" only if what it asks about can be derived. -/
theorem derivable_of_answer (book : Rulebook) (held : Inventory) (qs : List Question) (q : Question)
    (h : book.answerAfter held qs q = .ok true) : book.Derivable held q.asked :=
  (grounded_of_answerAfter qs q h).derivable

/-- Two names that refer to each other, one of them also met by a pickup, and a name that stops when it is asked. -/
def tangle : Rulebook where
  definitions := .ofList [
    ("x", .ofClauses (.ofNames "y" []) [.ofNames "key" []]),
    ("y", .atom (.reference "x")),
    ("key", .atom (.item 3)),
    ("broken", .ofClauses (.ofNames "key" ["missing"]) [])]
  glitchDefinitions := ∅
  settings := .default

theorem derivable_of_answer_tangle :
    tangle.answerAfter (.ofList [.item 3]) [.name "broken"] (.name "broken") = .ok false ∧
      tangle.answerAfter (.ofList [.item 3]) [.name "broken", .name "x"] (.requirement (.atom (.reference "x"))) =
        .ok true ∧
      tangle.Derivable (.ofList [.item 3]) (.atom (.reference "x")) :=
  ⟨rfl, rfl, derivable_of_answer tangle (.ofList [.item 3]) [.name "broken", .name "x"]
    (.requirement (.atom (.reference "x"))) rfl⟩

end

end Progression
