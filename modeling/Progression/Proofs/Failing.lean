import Mathlib.Data.List.Forall2
import Mathlib.Data.List.Induction
import Progression.Failure

/-!
# Steps that may fail

Steps in a row succeed if each of them does (`bind_eq_ok`), and what is done to every element of a list succeeds if it
does for each element, with the results in the same order (`mapM_eq_ok`); else it fails as it does for the first element
that fails (`mapM_eq_error`). What a list is gathered into keeps what each element keeps (`of_foldlM`), and two ways to
gather a list come to the same if they do for each element (`Alike.foldlM`). A context only changes failures
(`within_eq_ok`). Last come facts about lists whose elements are related one by one, which is how the results of a list
are told from the list.
-/

namespace Progression

section

variable {ε δ α β : Type}

theorem bind_eq_ok {x : Except ε α} {f : α → Except ε β} {b : β} :
    x >>= f = .ok b ↔ ∃ a, x = .ok a ∧ f a = .ok b := by
  cases x with
  | error e => exact ⟨nofun, fun ⟨_, h, _⟩ => by cases h⟩
  | ok a => exact ⟨fun h => ⟨a, rfl, h⟩, fun ⟨_, ha, h⟩ => by cases ha; exact h⟩

theorem map_eq_ok {x : Except ε α} {f : α → β} {b : β} : x.map f = .ok b ↔ ∃ a, x = .ok a ∧ f a = b := by
  cases x with
  | error e => exact ⟨nofun, fun ⟨_, h, _⟩ => by cases h⟩
  | ok a => exact ⟨fun h => ⟨a, rfl, Except.ok.inj h⟩, fun ⟨_, ha, h⟩ => by cases ha; exact congrArg _ h⟩

theorem mapError_eq_ok {x : Except ε α} {f : ε → δ} {a : α} : x.mapError f = .ok a ↔ x = .ok a := by
  cases x with
  | error e => exact ⟨nofun, nofun⟩
  | ok a' => exact ⟨fun h => by cases h; rfl, fun h => by cases h; rfl⟩

theorem within_eq_ok {c : Context} {x : Except Failure α} {a : α} : within c x = .ok a ↔ x = .ok a :=
  mapError_eq_ok

/-- What is made of a list is made of its elements, one by one. -/
theorem mapM_eq_ok {f : α → Except ε β} {l : List α} {l' : List β} :
    l.mapM f = .ok l' ↔ List.Forall₂ (fun a b => f a = .ok b) l l' := by
  induction l generalizing l' with
  | nil =>
    rw [List.mapM_nil, List.forall₂_nil_left_iff]
    exact ⟨fun h => (Except.ok.inj h).symm, fun h => h ▸ rfl⟩
  | cons a l ih =>
    rw [List.mapM_cons, bind_eq_ok, List.forall₂_cons_left_iff]
    constructor
    · rintro ⟨b, hb, h⟩
      obtain ⟨t, ht, h'⟩ := bind_eq_ok.1 h
      exact ⟨b, t, hb, ih.1 ht, (Except.ok.inj h').symm⟩
    · rintro ⟨b, t, hb, ht, rfl⟩
      exact ⟨b, hb, bind_eq_ok.2 ⟨t, ih.2 ht, rfl⟩⟩

/-- What is done to the elements of a list fails as it does for the first element for which it fails. -/
theorem mapM_eq_error {f : α → Except ε β} {before after : List α} {a : α} {e : ε}
    (hbefore : ∀ c ∈ before, ∃ b, f c = .ok b) (ha : f a = .error e) :
    (before ++ a :: after).mapM f = .error e := by
  induction before with
  | nil =>
    rw [List.nil_append, List.mapM_cons, ha]
    rfl
  | cons c before ih =>
    obtain ⟨⟨b, hb⟩, hbefore⟩ := List.forall_mem_cons.1 hbefore
    rw [List.cons_append, List.mapM_cons, hb, ih hbefore]
    rfl

/-- What holds of nothing and is kept with each element that is taken in holds of the whole list. -/
theorem of_foldlM {f : β → α → Except ε β} {I : List α → β → Prop} {b b' : β} (nil : I [] b)
    (step : ∀ l a c c', I l c → f c a = .ok c' → I (l ++ [a]) c') {l : List α} (h : l.foldlM f b = .ok b') :
    I l b' := by
  induction l using List.reverseRecOn generalizing b' with
  | nil =>
    cases h
    exact nil
  | append_singleton l a ih =>
    rw [List.foldlM_append, bind_eq_ok] at h
    obtain ⟨c, hc, h⟩ := h
    rw [List.foldlM_cons, bind_eq_ok] at h
    obtain ⟨c', ha, h⟩ := h
    cases h
    exact step l a c _ (ih hc) ha

end

/-! ## Two ways that come to the same -/

/-- Both fail, with the same failure, or both succeed, with results that are related. -/
inductive Alike {ε α β : Type} (R : α → β → Prop) : Except ε α → Except ε β → Prop
  | error (e : ε) : Alike R (.error e) (.error e)
  | ok {a : α} {b : β} (h : R a b) : Alike R (.ok a) (.ok b)

namespace Alike

variable {ε α β γ δ : Type} {R : α → β → Prop} {S : γ → δ → Prop} {x : Except ε α} {y : Except ε β}

theorem refl (x : Except ε α) : Alike Eq x x := by
  cases x with
  | error e => exact .error e
  | ok a => exact .ok rfl

theorem bind {f : α → Except ε γ} {g : β → Except ε δ} (h : Alike R x y)
    (hf : ∀ a b, R a b → Alike S (f a) (g b)) : Alike S (x >>= f) (y >>= g) := by
  cases h with
  | error e => exact .error e
  | ok h => exact hf _ _ h

/-- Gathering a list comes to the same if taking in an element does. -/
theorem foldlM {f : α → γ → Except ε α} {g : β → γ → Except ε β}
    (step : ∀ a b c, R a b → Alike R (f a c) (g b c)) (l : List γ) {a : α} {b : β} (h : R a b) :
    Alike R (l.foldlM f a) (l.foldlM g b) := by
  induction l generalizing a b with
  | nil => exact .ok h
  | cons c l ih =>
    rw [List.foldlM_cons, List.foldlM_cons]
    exact (step a b c h).bind fun _ _ h' => ih h'

theorem exists_of_ok {a : α} (h : Alike R x y) (ha : x = .ok a) : ∃ b, y = .ok b ∧ R a b := by
  cases h with
  | error e => cases ha
  | ok h =>
    cases ha
    exact ⟨_, rfl, h⟩

theorem exists_of_ok_right {b : β} (h : Alike R x y) (hb : y = .ok b) : ∃ a, x = .ok a ∧ R a b := by
  cases h with
  | error e => cases hb
  | ok h =>
    cases hb
    exact ⟨_, rfl, h⟩

end Alike

/-! ## Lists that are related element by element -/

section

variable {α β : Type} {R : α → β → Prop} {l : List α} {l' : List β}

theorem exists_forall₂ : (∃ l', List.Forall₂ R l l') ↔ ∀ a ∈ l, ∃ b, R a b := by
  induction l with
  | nil => exact ⟨fun _ _ ha => absurd ha List.not_mem_nil, fun _ => ⟨[], .nil⟩⟩
  | cons a l ih =>
    rw [List.forall_mem_cons, ← ih]
    constructor
    · rintro ⟨_, hb | ⟨hb, ht⟩⟩
      exact ⟨⟨_, hb⟩, _, ht⟩
    · rintro ⟨⟨b, hb⟩, t, ht⟩
      exact ⟨b :: t, .cons hb ht⟩

theorem exists_of_mem_right {b : β} (h : List.Forall₂ R l l') (hb : b ∈ l') : ∃ a ∈ l, R a b := by
  induction h with
  | nil => exact absurd hb List.not_mem_nil
  | cons ha _ ih =>
    rcases List.mem_cons.1 hb with rfl | hb
    · exact ⟨_, List.mem_cons_self, ha⟩
    · obtain ⟨a, hmem, hab⟩ := ih hb
      exact ⟨a, List.mem_cons_of_mem _ hmem, hab⟩

theorem exists_of_mem_left {a : α} (h : List.Forall₂ R l l') (ha : a ∈ l) : ∃ b ∈ l', R a b :=
  exists_of_mem_right h.flip ha

theorem exists_getElem?_of_forall₂ {i : Nat} {a : α} (h : List.Forall₂ R l l') (ha : l[i]? = some a) :
    ∃ b, l'[i]? = some b ∧ R a b := by
  induction h generalizing i with
  | nil => cases ha
  | cons hab _ ih =>
    cases i with
    | zero =>
      cases ha
      exact ⟨_, rfl, hab⟩
    | succ i => exact ih ha

theorem ne_nil_iff_of_forall₂ (h : List.Forall₂ R l l') : l ≠ [] ↔ l' ≠ [] := by
  cases h with
  | nil => exact ⟨fun h => absurd rfl h, fun h => absurd rfl h⟩
  | cons _ _ => exact ⟨fun _ => List.cons_ne_nil _ _, fun _ => List.cons_ne_nil _ _⟩

end

end Progression
