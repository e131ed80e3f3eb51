import Mathlib.Logic.Relation
import Progression.Proofs.Evaluation.Relevance
import Progression.Proofs.Session.Accessible
import Progression.Proofs.Session.Operations

/-!
# What makes no difference to a session

A requirement reaches the names that it may come to when it is decided: those it refers to, those that the requirements
of these refer to, and so on, but nothing behind a name that the settings decide. All that an answer depends on is what
the reached names mean and which of the tokens mentioned there are held. So the same rules below a requirement give the
same answer, cycles or not, and nothing that is overridden or picked up elsewhere makes a difference
(`check_depends_on_reached`).
-/

namespace Progression

namespace Rulebook

/-- The names that deciding `n` may come to next: those that its requirement refers to, if it is opened. -/
def next (book : Rulebook) (n : Name) : List Name :=
  match book.meaning n with
  | .bound r => r.references
  | .constant _ => []
  | .token _ => []
  | .undefined => []

/-- Deciding the requirement may come to `k`. -/
def Reaches (book : Rulebook) (r : Requirement) (k : Name) : Prop :=
  ∃ n ∈ r.references, Relation.ReflTransGen (fun n k => k ∈ book.next n) n k

/-- An unbound name is denied, because it is a glitch name and glitches are off. -/
def Gates (book : Rulebook) (n : Name) : Prop := book.settings.glitches = false ∧ n ∈ book.glitchDefinitions

variable {book book' : Rulebook} {r : Requirement} {n k : Name}

theorem reaches_of_mem (h : n ∈ r.references) : book.Reaches r n := ⟨n, h, .refl⟩

theorem Reaches.tail {b : Requirement} (hn : book.Reaches r n) (hmean : book.meaning n = .bound b)
    (hk : k ∈ b.references) : book.Reaches r k := by
  obtain ⟨m, hm, hmn⟩ := hn
  refine ⟨m, hm, hmn.tail ?_⟩
  rw [next, hmean]
  exact hk

/-- Names that have among them what the requirement refers to, and what comes next, are all that is reached. -/
theorem Reaches.mem_of_closed {ns : List Name} (hr : ∀ n ∈ r.references, n ∈ ns)
    (hns : ∀ n ∈ ns, ∀ k ∈ book.next n, k ∈ ns) (h : book.Reaches r k) : k ∈ ns := by
  obtain ⟨n, hn, hnk⟩ := h
  induction hnk with
  | refl => exact hr n hn
  | tail _ hjk ih => exact hns _ ih _ hjk

/-- What a name means goes by the settings, its binding, and whether it is gated. -/
theorem meaning_congr (hsettings : book.settings = book'.settings)
    (hget : book.definitions.get? n = book'.definitions.get? n)
    (hgates : n ∉ book.definitions → (book.Gates n ↔ book'.Gates n)) : book.meaning n = book'.meaning n := by
  cases hrule : book.settings.rule? n with
  | some rule =>
    have hrule' : book'.settings.rule? n = some rule := hsettings ▸ hrule
    rw [meaning_of_rule hrule, meaning_of_rule hrule', hsettings]
  | none =>
    have hrule' : book'.settings.rule? n = none := hsettings ▸ hrule
    cases hbound : book.definitions.get? n with
    | some r => rw [meaning_of_binding hrule hbound, meaning_of_binding hrule' (hget ▸ hbound)]
    | none =>
      rw [meaning_of_unbound hrule hbound, meaning_of_unbound hrule' (hget ▸ hbound)]
      have hiff := hgates (Table.get?_eq_none_iff.1 hbound)
      have hsame : (!book.settings.glitches && decide (n ∈ book.glitchDefinitions)) =
          (!book'.settings.glitches && decide (n ∈ book'.glitchDefinitions)) := by
        rw [Bool.eq_iff_iff]
        simpa [Gates] using hiff
      rw [hsame]

end Rulebook

/-- Two rulebooks with the same settings that agree on every name that the requirement reaches, and two inventories that
agree on every token that it or a binding of such a name mentions. -/
structure SameBelow (book book' : Rulebook) (held held' : Inventory) (r : Requirement) : Prop where
  settings : book.settings = book'.settings
  binding {n : Name} : book.Reaches r n → book.definitions.get? n = book'.definitions.get? n
  gating {n : Name} : book.Reaches r n → n ∉ book.definitions → (book.Gates n ↔ book'.Gates n)
  mentioned {t : Token} : t ∈ r.tokens → (t ∈ held ↔ t ∈ held')
  token {n : Name} {b : Requirement} {t : Token} : book.Reaches r n → book.definitions.get? n = some b →
    t ∈ b.tokens → (t ∈ held ↔ t ∈ held')

namespace SameBelow

variable {book book' : Rulebook} {held held' : Inventory} {r : Requirement}

/-- The reached names are closed under references and mean the same. -/
theorem agree (h : SameBelow book book' held held' r) : Agree book book' held held' (book.Reaches r) where
  meaning hn := Rulebook.meaning_congr h.settings (h.binding hn) (h.gating hn)
  token hn hmean := by
    obtain ⟨b, hget, ht⟩ := Rulebook.get?_of_meaning_token hmean
    exact h.token hn hget ht
  mentioned hn hmean _ ht := h.token hn (Rulebook.get?_of_meaning_bound hmean) ht
  referred hn hmean _ hk := hn.tail hmean hk

theorem check_eq (h : SameBelow book book' held held' r) : book.check held r = book'.check held' r :=
  h.agree.check_eq (fun _ => h.mentioned) fun _ => Rulebook.reaches_of_mem

end SameBelow

namespace Session

variable {s : Session} {r : Requirement}

theorem rulebook_after_override (s : Session) (n : Name) (b : Requirement) :
    (s.after (.override n b)).rulebook = { s.rulebook with definitions := s.definitions.set n b } := rfl

theorem sameBelow_override {n : Name} (hn : ¬ s.rulebook.Reaches r n) (b : Requirement) (held : Inventory) :
    SameBelow s.rulebook (s.after (.override n b)).rulebook held held r where
  settings := rfl
  binding {k} hk := by
    have hne : k ≠ n := fun h => hn (h ▸ hk)
    rw [rulebook_after_override]
    show s.definitions.get? k = (s.definitions.set n b).get? k
    rw [Table.get?_set, if_neg hne]
  gating _ _ := Iff.rfl
  mentioned _ := Iff.rfl
  token _ _ _ := Iff.rfl

theorem sameBelow_hold {t : Token} (hr : t ∉ r.tokens)
    (hreached : ∀ n b, s.rulebook.Reaches r n → s.definitions.get? n = some b → t ∉ b.tokens) :
    SameBelow s.rulebook s.rulebook s.inventory (s.inventory.add t) r := by
  have hother : ∀ u, u ≠ t → (u ∈ s.inventory ↔ u ∈ s.inventory.add t) := by
    intro u hu
    rw [Inventory.mem_add]
    exact (or_iff_right hu).symm
  exact {
    settings := rfl
    binding := fun _ => rfl
    gating := fun _ _ => Iff.rfl
    mentioned := fun hu => hother _ fun h => hr (h ▸ hu)
    token := fun hn hget hu => hother _ fun h => hreached _ _ hn hget (h ▸ hu) }

end Session

/-- What a requirement is answered depends only on what it reaches. With the same settings, the same bindings and gates
below it and the same tokens mentioned there, it is decided alike from every memo, with the same answer or failure, the
same memo afterwards and the same log. In a session, it makes no difference to override a name that is not reached, nor
to hold one more token that is not mentioned by the requirement or a binding of a reached name. -/
theorem check_depends_on_reached (r : Requirement) :
    (∀ book book' held held', SameBelow book book' held held' r → book.check held r = book'.check held' r) ∧
    (∀ (s : Session) n b, ¬ s.rulebook.Reaches r n →
      (s.after (.override n b)).checkRequirement r = s.checkRequirement r) ∧
    ∀ (s : Session) t, t ∉ r.tokens →
      (∀ n b, s.rulebook.Reaches r n → s.definitions.get? n = some b → t ∉ b.tokens) →
      (s.after (.hold t)).checkRequirement r = s.checkRequirement r := by
  refine ⟨fun book book' held held' h => h.check_eq, fun s n b hn => ?_, fun s t hr hreached => ?_⟩
  · exact congrArg Query.ofCheck (Session.sameBelow_override hn b s.inventory).check_eq.symm
  · exact congrArg Query.ofCheck (Session.sameBelow_hold hr hreached).check_eq.symm

/-- The same knot of names, with another name for the lamp and one more name. -/
def retiedKnot : Rulebook where
  definitions := .ofList [
    ("key", .atom (.item 3)),
    ("lamp", .atom (.reference "x")),
    ("y", .atom (.reference "x")),
    ("x", .ofClauses (.ofNames "y" []) [.ofNames "key" []])]
  glitchDefinitions := .ofList [("never", .free)]
  settings := .default

theorem reaches_knot {k : Name} (h : knot.Reaches (.atom (.reference "x")) k) : k ∈ ["x", "y", "key"] :=
  h.mem_of_closed (by decide) (by decide)

theorem sameBelow_retiedKnot :
    SameBelow knot retiedKnot (.ofList [.item 3]) (.ofList [.item 3, .item 5]) (.atom (.reference "x")) where
  settings := rfl
  binding {k} hk := by
    have hall : ∀ k ∈ ["x", "y", "key"], knot.definitions.get? k = retiedKnot.definitions.get? k := by decide
    exact hall k (reaches_knot hk)
  gating {k} hk hunbound := by
    have hall : ∀ k ∈ ["x", "y", "key"], k ∈ knot.definitions := by decide
    exact absurd (hall k (reaches_knot hk)) hunbound
  mentioned ht := absurd ht List.not_mem_nil
  token {k b t} hk hget ht := by
    have hall : ∀ k ∈ ["x", "y", "key"], ∀ t ∈ (knot.definitions.get? k).elim [] Requirement.tokens,
        (t ∈ Inventory.ofList [.item 3] ↔ t ∈ Inventory.ofList [.item 3, .item 5]) := by decide
    refine hall k (reaches_knot hk) t ?_
    rw [hget]
    exact ht

/-- The knot with the key in hand, where the lamp comes first at the only location. -/
def lampSession : Session := knot.sessionWith (.ofList [.item 3]) lampFirst

/-- Who asks for `x` cannot tell what the lamp is, nor whether it is held. -/
theorem check_depends_on_reached_knot :
    SameBelow knot retiedKnot (.ofList [.item 3]) (.ofList [.item 3, .item 5]) (.atom (.reference "x")) ∧
      knot.check (.ofList [.item 3]) (.atom (.reference "x")) =
        retiedKnot.check (.ofList [.item 3, .item 5]) (.atom (.reference "x")) ∧
      (lampSession.after (.override "lamp" .free)).checkRequirement (.atom (.reference "x")) =
        lampSession.checkRequirement (.atom (.reference "x")) ∧
      (lampSession.after (.hold (.item 5))).checkRequirement (.atom (.reference "x")) =
        lampSession.checkRequirement (.atom (.reference "x")) := by
  obtain ⟨hsame, hoverride, hhold⟩ := check_depends_on_reached (.atom (.reference "x"))
  refine ⟨sameBelow_retiedKnot, hsame _ _ _ _ sameBelow_retiedKnot, ?_, ?_⟩
  · have hlamp : ¬ lampSession.rulebook.Reaches (.atom (.reference "x")) "lamp" := fun h =>
      absurd (reaches_knot h) (by decide)
    exact hoverride lampSession "lamp" .free hlamp
  · have hall : ∀ k ∈ ["x", "y", "key"], .item 5 ∉ (knot.definitions.get? k).elim [] Requirement.tokens := by decide
    refine hhold lampSession (.item 5) List.not_mem_nil fun n b hn hget => ?_
    have hn' := hall n (reaches_knot hn)
    rwa [show knot.definitions.get? n = some b from hget] at hn'

end Progression
