import Progression.Proofs.Evaluation.Spoiling
import Progression.Proofs.Session.Queries

/-!
# Accessible locations and more tokens

One more token should never make a location inaccessible, but it can: the token may bring up a name of a cycle earlier
than before, and so spoil another name (`accessible_not_mono`). A location that is lost can still be derived, so just
the locations are lost that are misjudged afterwards (`Session.subset_iff_not_misjudged`). None is lost where the
rulebook is complete, and where each name that definitions refer to means something, only there
(`accessible_mono_iff`).
-/

namespace Progression

namespace Session

/-- The session with one more token. -/
def plus (s : Session) (t : Token) : Session := { s with inventory := s.inventory.add t }

variable {s : Session} {r : Requirement}

theorem mem_accessible {keys : List LocationKey} {key : LocationKey} (h : s.accessible.answer = .ok keys) :
    key ∈ keys ↔ ∃ p, (key, p) ∈ s.world.places.entries ∧ s.first p.room = .ok true ∧ s.first p.entity = .ok true := by
  obtain ⟨-, rfl⟩ := accessible_eq_ok.1 h
  constructor
  · intro hkey
    obtain ⟨⟨key', p⟩, he, rfl⟩ := List.mem_map.1 hkey
    obtain ⟨hp, hyes⟩ := List.mem_filter.1 he
    exact ⟨p, hp, checkEntry_eq_ok_true.1 (affirmed_eq_true.1 hyes)⟩
  · rintro ⟨p, hp, hyes⟩
    exact List.mem_map.2 ⟨(key, p), List.mem_filter.2 ⟨hp, affirmed_eq_true.2 (checkEntry_eq_ok_true.2 hyes)⟩, rfl⟩

theorem grounded_of_first (h : s.first r = .ok true) : s.rulebook.Grounded s.inventory r :=
  grounded_of_answerAfter [] (.requirement r) h

/-- What is met can be derived with one more token as well. -/
theorem grounded_plus_of_first (t : Token) (h : s.first r = .ok true) :
    (s.plus t).rulebook.Grounded (s.plus t).inventory r :=
  (grounded_of_first h).mono fun _ hu => Inventory.mem_add.2 (.inr hu)

/-- The location is found inaccessible although both its requirements can be derived. -/
def Misjudges (s : Session) (e : LocationKey × Place) : Prop :=
  (s.checkEntry e).answer = .ok false ∧ s.rulebook.Grounded s.inventory e.2.room ∧
    s.rulebook.Grounded s.inventory e.2.entity

theorem not_misjudges_of_complete (h : s.rulebook.Complete) (e : LocationKey × Place) : ¬ s.Misjudges e := by
  rintro ⟨hno, hroom, hentity⟩
  obtain ⟨-, hno⟩ | ⟨hno, -⟩ := checkEntry_eq_ok.1 hno
  · exact h _ _ hno hentity
  · exact h _ _ hno hroom

/-- A location that can be derived and is not misjudged is listed. -/
theorem mem_accessible_of_grounded {keys : List LocationKey} {key : LocationKey} {p : Place}
    (h : s.accessible.answer = .ok keys) (hp : (key, p) ∈ s.world.places.entries)
    (hroom : s.rulebook.Grounded s.inventory p.room) (hentity : s.rulebook.Grounded s.inventory p.entity)
    (hjudged : ¬ s.Misjudges (key, p)) : key ∈ keys := by
  refine (mem_accessible h).2 ⟨p, hp, (checkEntry_eq_ok_true (e := (key, p))).1 ?_⟩
  obtain ⟨b, hb⟩ := (accessible_eq_ok.1 h).1 (key, p) hp
  cases b with
  | true => exact hb
  | false => exact absurd ⟨hb, hroom, hentity⟩ hjudged

/-- Of the locations that are accessible, those are lost by one more token that are misjudged with it. -/
theorem subset_iff_not_misjudged {t : Token} {before after : List LocationKey}
    (hbefore : s.accessible.answer = .ok before) (hafter : (s.plus t).accessible.answer = .ok after) :
    (∀ key ∈ before, key ∈ after) ↔
      ∀ e ∈ s.world.places.entries, e.1 ∈ before → ¬ (s.plus t).Misjudges e := by
  constructor
  · intro hsub e he hkey hmisjudged
    obtain ⟨p, hp, hyes⟩ := (mem_accessible hafter).1 (hsub e.1 hkey)
    have hvalue : p = e.2 :=
      Option.some.inj ((Table.get?_eq_some_iff.2 hp).symm.trans (Table.get?_eq_some_iff.2 he))
    subst hvalue
    have hanswer : ((s.plus t).checkEntry e).answer = .ok true := checkEntry_eq_ok_true.2 hyes
    rw [hmisjudged.1] at hanswer
    cases hanswer
  · intro hnone key hkey
    obtain ⟨p, hp, hroom, hentity⟩ := (mem_accessible hbefore).1 hkey
    exact mem_accessible_of_grounded hafter hp (grounded_plus_of_first t hroom) (grounded_plus_of_first t hentity)
      (hnone (key, p) hp hkey)

end Session

namespace Rulebook

/-- In no session with these rules a location is lost by one more token. -/
def Monotone (book : Rulebook) : Prop :=
  ∀ (s : Session) (t : Token) (before after : List LocationKey), s.rulebook = book →
    s.accessible.answer = .ok before → (s.plus t).accessible.answer = .ok after → ∀ key ∈ before, key ∈ after

theorem Complete.monotone {book : Rulebook} (h : book.Complete) : book.Monotone := by
  rintro s t before after rfl hbefore hafter
  refine (Session.subset_iff_not_misjudged hbefore hafter).2 fun e _ _ => ?_
  exact Session.not_misjudges_of_complete (s := s.plus t) h e

/-- The location of a session that has only one. -/
def onlyKey : LocationKey := ⟨⟨0, 0, 0⟩, 0⟩

/-- A session with these rules and a single location. -/
def sessionWith (book : Rulebook) (held : Inventory) (r : Requirement) : Session where
  world := {
    flags := ∅
    definitions := book.definitions
    glitchDefinitions := book.glitchDefinitions
    preferences := ∅
    places := .ofList [(onlyKey, ⟨r, .free, []⟩)] }
  settings := book.settings
  definitions := book.definitions
  inventory := held
  chosen := none
  removedPortraits := []

theorem accessible_sessionWith {book : Rulebook} {held : Inventory} {r : Requirement} {b : Bool}
    (h : ((book.check held r).on ∅).1 = .ok b) :
    (book.sessionWith held r).accessible.answer = .ok (if b then [onlyKey] else []) := by
  have hentry : ((book.sessionWith held r).checkEntry (onlyKey, ⟨r, .free, []⟩)).answer = .ok b := by
    refine Session.checkEntry_eq_ok.2 ?_
    cases b with
    | false => exact .inr ⟨h, rfl⟩
    | true => exact .inl ⟨h, rfl⟩
  refine Session.accessible_eq_ok.2 ⟨fun e he => ?_, ?_⟩
  · obtain rfl := List.mem_singleton.1 he
    exact ⟨b, hentry⟩
  · show _ = ([(onlyKey, (⟨r, .free, []⟩ : Place))].filter fun e =>
      affirmed ((book.sessionWith held r).checkEntry e).answer).map Prod.fst
    rw [List.filter_singleton, hentry]
    cases b <;> rfl

theorem complete_of_monotone {book : Rulebook} (hclosed : book.Closed) (h : book.Monotone) : book.Complete := by
  refine Classical.byContradiction fun hnot => ?_
  obtain ⟨held, t, r, hyes, hno⟩ := exists_gate hclosed hnot
  have hmem := h (book.sessionWith held r) t _ _ rfl (accessible_sessionWith hyes) (accessible_sessionWith hno)
    onlyKey List.mem_cons_self
  exact List.not_mem_nil hmem

/-- Where no name leads back to itself by way of another name, no location is lost by one more token. -/
theorem monotone_of_onlySelfLoops {book : Rulebook} (h : book.definitions.OnlySelfLoops) : book.Monotone :=
  (complete_of_onlySelfLoops h).monotone

end Rulebook

/-- When one more token loses no location: in a session, if and only if none of the accessible locations is misjudged
with the token; in all sessions with some rules, if these are complete, and where every name that the definitions refer
to means something, only if they are. -/
theorem accessible_mono_iff (book : Rulebook) :
    (∀ (s : Session) (t : Token) (before after : List LocationKey), s.rulebook = book →
      s.accessible.answer = .ok before → (s.plus t).accessible.answer = .ok after →
        ((∀ key ∈ before, key ∈ after) ↔
          ∀ e ∈ s.world.places.entries, e.1 ∈ before → ¬ (s.plus t).Misjudges e)) ∧
    (book.Complete → book.Monotone) ∧ (book.Closed → (book.Monotone ↔ book.Complete)) := by
  refine ⟨fun s t before after _ hbefore hafter => ?_, fun h => h.monotone, fun hclosed => ?_⟩
  · exact Session.subset_iff_not_misjudged hbefore hafter
  · exact ⟨Rulebook.complete_of_monotone hclosed, fun h => h.monotone⟩

/-- A name that refers to itself, and to nothing else but a pickup. -/
def selfReferring : Rulebook where
  definitions := .ofList [
    ("x", .ofClauses (.ofNames "x" []) [.ofNames "key" []]),
    ("key", .atom (.item 3))]
  glitchDefinitions := ∅
  settings := .default

theorem accessible_mono_selfReferring : selfReferring.Complete ∧ selfReferring.Monotone := by
  have hcomplete : selfReferring.Complete :=
    complete_of_onlySelfLoops (Definitions.onlySelfLoops_of_rank (fun n => if n = "x" then 1 else 0) (by decide))
  exact ⟨hcomplete, (accessible_mono_iff selfReferring).2.1 hcomplete⟩

/-- Two names that refer to each other, one of them also met by a pickup. -/
def knot : Rulebook where
  definitions := .ofList [
    ("x", .ofClauses (.ofNames "y" []) [.ofNames "key" []]),
    ("y", .atom (.reference "x")),
    ("key", .atom (.item 3)),
    ("lamp", .atom (.item 5)),
    ("never", .atom (.literal false))]
  glitchDefinitions := ∅
  settings := .default

/-- Asks for `y`, but with the lamp for `x` before it, so that `y` is settled while `x` is open. -/
def lampFirst : Requirement :=
  .ofClauses (.ofNames "lamp" ["x", "never"]) [.ofNames "y" []]

/-- One more token can make a location inaccessible. -/
theorem accessible_not_mono :
    ¬ ∀ (s : Session) (t : Token) (before after : List LocationKey), s.accessible.answer = .ok before →
      (s.plus t).accessible.answer = .ok after → ∀ key ∈ before, key ∈ after := by
  intro h
  have hmem := h (knot.sessionWith (.ofList [.item 3]) lampFirst) (.item 5) [Rulebook.onlyKey] [] rfl rfl
    Rulebook.onlyKey List.mem_cons_self
  exact List.not_mem_nil hmem

end Progression
