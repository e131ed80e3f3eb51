import Progression.Proofs.Definitions.Cycles
import Progression.Proofs.Evaluation.Opening

/-!
# Invariants of the memo

A check is compared with another way to answer by two things: a relation between the answers (`Follows`), and what
the memo holds before and after, which may depend on the names that are open at the time (`Check.Yields`). If the six
ways to decide a name agree with both, then so does every check (`Settles.checkName`, `Settles.check`). This is the
induction over the openings, made once. What the memo holds is mostly that the settled answers are in some relation to
their names, and that no other names are marked than open ones (`Records`).
-/

namespace Progression

section

variable {m' : Type → Type} [Monad m']

/-- A relation between what a check answers and another way to answer that both joints keep, read off the first
answer: it decides whether the second one is asked for. -/
structure Follows (P : Except Name Bool → m' Bool → Prop) : Prop where
  value (b : Bool) : P (.ok b) (pure b)
  andThen {a : Except Name Bool} {x y : m' Bool} : P (.ok true) x → P a y →
    P a (do if ← x then y else return false)
  andStop {x y : m' Bool} : P (.ok false) x → P (.ok false) (do if ← x then y else return false)
  andFail {n : Name} {x y : m' Bool} : P (.error n) x → P (.error n) (do if ← x then y else return false)
  orStop {x y : m' Bool} : P (.ok true) x → P (.ok true) (do if ← x then return true else y)
  orElse {a : Except Name Bool} {x y : m' Bool} : P (.ok false) x → P a y →
    P a (do if ← x then return true else y)
  orFail {n : Name} {x y : m' Bool} : P (.error n) x → P (.error n) (do if ← x then return true else y)

/-- What holds of every answer, be it of a part or of the whole, and of stopping as it holds of the part that stops,
needs no other way to answer. -/
theorem follows_of_ok {Q : Except Name Bool → Prop} (h : ∀ b, Q (.ok b)) : Follows fun a (_ : Id Bool) => Q a where
  value := h
  andThen _ hy := hy
  andStop hx := hx
  andFail hx := hx
  orStop hx := hx
  orElse _ hy := hy
  orFail hx := hx

/-- On every memo in `I`, what the check answers is related to `x`; the memo after it is in `I` if it answers, and
in `E` if it stops. -/
def Check.Yields {α : Type} (I E : Memo → Prop) (P : Except Name Bool → α → Prop) (c : Check Bool) (x : α) : Prop :=
  ∀ memo, I memo → P (c.on memo).1 x ∧
    match (c.on memo).1 with
    | .ok _ => I (c.on memo).2
    | .error _ => E (c.on memo).2

namespace Check.Yields

variable {α : Type} {I E : Memo → Prop} {P : Except Name Bool → α → Prop} {c : Check Bool} {x : α} {memo m : Memo}

theorem of_ok {b : Bool} (h : c.Yields I E P x) (hI : I memo) (hrun : c.on memo = (.ok b, m)) : P (.ok b) x ∧ I m := by
  have h' := h memo hI
  rwa [hrun] at h'

theorem of_error {n : Name} (h : c.Yields I E P x) (hI : I memo) (hrun : c.on memo = (.error n, m)) :
    P (.error n) x ∧ E m := by
  have h' := h memo hI
  rwa [hrun] at h'

end Check.Yields

theorem Follows.lifts {P : Except Name Bool → m' Bool → Prop} (hP : Follows P) (I E : Memo → Prop) :
    Lifts (Check.Yields I E P) where
  value b memo hI := ⟨hP.value b, hI⟩
  andThen {x y x' y'} hx hy memo hI := by
    have h := hx memo hI
    rw [Check.on_bind]
    rcases hc : x.on memo with ⟨(n | (_ | _)), memo'⟩ <;> rw [hc] at h
    · exact ⟨hP.andFail h.1, h.2⟩
    · exact ⟨hP.andStop h.1, h.2⟩
    · obtain ⟨h1, h2⟩ := hy memo' h.2
      exact ⟨hP.andThen h.1 h1, h2⟩
  orElse {x y x' y'} hx hy memo hI := by
    have h := hx memo hI
    rw [Check.on_bind]
    rcases hc : x.on memo with ⟨(n | (_ | _)), memo'⟩ <;> rw [hc] at h
    · exact ⟨hP.orFail h.1, h.2⟩
    · obtain ⟨h1, h2⟩ := hy memo' h.2
      exact ⟨hP.orElse h.1 h1, h2⟩
    · exact ⟨hP.orStop h.1, h.2⟩

/-! ## The induction over openings -/

variable {γ : Type} {book : Rulebook} {held : Inventory}

/-- What has to be shown of the ways to decide a name, for names in `A c` on memos in `I c`, where `x c` is the other
way to answer. The context `c` says what is open; inside a name `n` it is `within c n`. -/
structure Settles (book : Rulebook) (held : Inventory) (within : γ → Name → γ) (A : γ → Name → Prop)
    (I E : γ → Memo → Prop) (P : Except Name Bool → m' Bool → Prop) (x : γ → Name → m' Bool) : Prop where
  follows : Follows P
  constant {c : γ} {n : Name} {b : Bool} : A c n → book.meaning n = .constant b → P (.ok b) (x c n)
  undefined {c : γ} {n : Name} {memo : Memo} : A c n → I c memo → book.meaning n = .undefined →
    P (.error n) (x c n) ∧ E c memo
  known {c : γ} {n : Name} {memo : Memo} {y : Resolution} : A c n → I c memo → memo.get? n = some y →
    P (.ok y.answer) (x c n)
  token {c : γ} {n : Name} {memo : Memo} {t : Token} : A c n → I c memo → book.meaning n = .token t →
    memo.get? n = none → P (.ok (t ∈ held : Bool)) (x c n) ∧ I c (memo.set n (.settled (t ∈ held)))
  mark {c : γ} {n : Name} {memo : Memo} {r : Requirement} : A c n → I c memo → book.meaning n = .bound r →
    memo.get? n = none → I (within c n) (memo.set n .inProgress) ∧ ∀ j ∈ r.references, A (within c n) j
  settle {c : γ} {n : Name} {m : Memo} {r : Requirement} {b : Bool} : A c n → book.meaning n = .bound r →
    I (within c n) m → P (.ok b) (r.evaluate held (x (within c n))) →
    P (.ok b) (x c n) ∧ I c (m.set n (.settled b))
  stop {c : γ} {n : Name} {m : Memo} {r : Requirement} {e : Name} : A c n → book.meaning n = .bound r →
    E (within c n) m → P (.error e) (r.evaluate held (x (within c n))) → P (.error e) (x c n) ∧ E c m

namespace Settles

variable {within : γ → Name → γ} {A : γ → Name → Prop} {I E : γ → Memo → Prop}
  {P : Except Name Bool → m' Bool → Prop} {x : γ → Name → m' Bool} (h : Settles book held within A I E P x)
include h

theorem checkName_below (k : Nat) (c : γ) (n : Name) (hn : A c n) :
    (book.checkName held n).Yields (fun memo => I c memo ∧ book.unopened memo < k) (E c) P (x c n) := by
  induction k generalizing c n with
  | zero => exact fun memo hmemo => absurd hmemo.2 (Nat.not_lt_zero _)
  | succ k ih =>
    rintro memo ⟨hI, hk⟩
    -- the body of an opened name runs on a memo with fewer names to open
    have hbody {r : Requirement} (hmean : book.meaning n = .bound r) (hget : memo.get? n = none) :
        (book.check held r).Yields (fun m => I (within c n) m ∧ book.unopened m < k) (E (within c n)) P
          (r.evaluate held (x (within c n))) ∧ I (within c n) (memo.set n .inProgress) ∧
          book.unopened (memo.set n .inProgress) < k := by
      obtain ⟨hmark, hbelow⟩ := h.mark hn hI hmean hget
      refine ⟨(h.follows.lifts _ _).evaluate_same held r fun j hj => ih _ j (hbelow j hj), hmark, ?_⟩
      exact Nat.lt_of_lt_of_le (book.unopened_mark_lt hmean hget) (Nat.le_of_lt_succ hk)
    have hle := book.unopened_checkName_le held n memo
    have hstep := book.checkName_step held n memo
    generalize (book.checkName held n).on memo = p at hle hstep ⊢
    cases hstep with
    | constant hmean => exact ⟨h.constant hn hmean, hI, hk⟩
    | undefined hmean => exact h.undefined hn hI hmean
    | known hmean hget => exact ⟨h.known hn hI hget, hI, hk⟩
    | token hmean hget =>
      obtain ⟨hP, hI'⟩ := h.token hn hI hmean hget
      exact ⟨hP, hI', Nat.lt_of_le_of_lt hle hk⟩
    | opened hmean hget hrun =>
      obtain ⟨hyields, hmark⟩ := hbody hmean hget
      obtain ⟨hP, hm, -⟩ := hyields.of_ok hmark hrun
      obtain ⟨hP', hI'⟩ := h.settle hn hmean hm hP
      exact ⟨hP', hI', Nat.lt_of_le_of_lt hle hk⟩
    | stopped hmean hget hrun =>
      obtain ⟨hyields, hmark⟩ := hbody hmean hget
      obtain ⟨hP, hm⟩ := hyields.of_error hmark hrun
      exact h.stop hn hmean hm hP

/-- Deciding a name keeps to what holds of every way to decide it. -/
theorem checkName {c : γ} {n : Name} (hn : A c n) : (book.checkName held n).Yields (I c) (E c) P (x c n) := by
  intro memo hI
  obtain ⟨hP, hmemo⟩ := h.checkName_below (book.unopened memo + 1) c n hn memo ⟨hI, Nat.lt_succ_self _⟩
  refine ⟨hP, ?_⟩
  split at hmemo
  · exact hmemo.1
  · exact hmemo

/-- Deciding a requirement does as well. -/
theorem check {c : γ} {r : Requirement} (hr : ∀ n ∈ r.references, A c n) :
    (book.check held r).Yields (I c) (E c) P (r.evaluate held (x c)) :=
  (h.follows.lifts _ _).evaluate_same held r fun n hn => h.checkName (hr n hn)

end Settles

/-! ## Settled answers and marks -/

/-- What a memo says while no names but those of a set are open: the answers of settled names are in `Q`, and no other
names are marked. -/
structure Records (Q : Name → Bool → Prop) (opened : Name → Prop) (memo : Memo) : Prop where
  settled {n : Name} {b : Bool} : memo.get? n = some (.settled b) → Q n b
  marked {n : Name} : memo.get? n = some .inProgress → opened n

namespace Records

variable {Q : Name → Bool → Prop} {opened opened' : Name → Prop} {memo : Memo} {n : Name} {b : Bool}

theorem empty : Records Q opened ∅ where
  settled h := by simp at h
  marked h := by simp at h

/-- Marking a name opens it. -/
theorem mark (h : Records Q opened memo) (n : Name) :
    Records Q (fun k => k = n ∨ opened k) (memo.set n .inProgress) where
  settled {k b} hk := by
    rw [Table.get?_set] at hk
    split at hk
    · cases hk
    · exact h.settled hk
  marked {k} hk := by
    rw [Table.get?_set] at hk
    split at hk
    · next hkn => exact .inl hkn
    · exact .inr (h.marked hk)

/-- Settling a name closes it. -/
theorem settle (h : Records Q (fun k => k = n ∨ opened k) memo) (hb : Q n b) :
    Records Q opened (memo.set n (.settled b)) where
  settled {k c} hk := by
    rw [Table.get?_set] at hk
    split at hk
    · next hkn => cases hk; rw [hkn]; exact hb
    · exact h.settled hk
  marked {k} hk := by
    rw [Table.get?_set] at hk
    split at hk
    · cases hk
    · next hkn => exact (h.marked hk).resolve_left hkn

theorem mono (h : Records Q opened memo) (hsub : ∀ k, opened k → opened' k) : Records Q opened' memo :=
  ⟨h.settled, fun hk => hsub _ (h.marked hk)⟩

end Records

/-! ## Open names -/

theorem Rulebook.refers_of_meaning_bound (book : Rulebook) {n k : Name} {r : Requirement}
    (hmean : book.meaning n = .bound r) (hk : k ∈ r.references) : book.definitions.Refers n k :=
  ⟨r, get?_of_meaning_bound hmean, hk⟩

/-- All open names lead to `n`, as they do whenever `n` is asked for. -/
def LeadTo (book : Rulebook) (opened : Name → Prop) (n : Name) : Prop :=
  ∀ g, opened g → Relation.TransGen book.definitions.Refers g n

theorem leadTo_none (book : Rulebook) (n : Name) : LeadTo book (fun _ => False) n := fun _ h => h.elim

theorem LeadTo.mark {opened : Name → Prop} {n k : Name} {r : Requirement} (h : LeadTo book opened n)
    (hmean : book.meaning n = .bound r) (hk : k ∈ r.references) : LeadTo book (fun j => j = n ∨ opened j) k := by
  have hnk : book.definitions.Refers n k := book.refers_of_meaning_bound hmean hk
  rintro g (rfl | hg)
  · exact .single hnk
  · exact (h g hg).tail hnk

end

end Progression
