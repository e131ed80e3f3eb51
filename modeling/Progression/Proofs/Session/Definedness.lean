import Progression.Proofs.Evaluation.Stopping
import Progression.Proofs.FirstOccurrence
import Progression.Proofs.Session.Ranking

/-!
# Names that mean nothing

A session lists the names that are referred to and mean nothing. The list is found without deciding anything, and it
is exact: just for these names the question fails whatever is held, and the failure names the name itself. And a
failure always names a name that means nothing (`meaning_of_error`), so where the list is empty, no question about the
session fails (`undefinedNames_exact`).
-/

namespace Progression

namespace Session

/-- The names that the requirements of a session refer to, as often as they do. -/
def referredNames (s : Session) : List Name := s.requirements.flatMap Requirement.references

/-- The session with another inventory. -/
def holding (s : Session) (held : Inventory) : Session := { s with inventory := held }

/-- Whatever is held, asking for the name fails, and the message names it. -/
def NeverResolves (s : Session) (n : Name) : Prop :=
  ∀ held, ∃ f, (Query.ofCheck (s.rulebook.checkName held n)).answer = .error f ∧
    f.messages = ["Invalid requirement: " ++ n]

/-- No question about the session fails: neither for a name that is bound, whatever was asked before, nor for a
location or all of them, nor for a ranking of the progression tokens. -/
structure NeverFails (s : Session) : Prop where
  name : ∀ n ∈ s.definitions, ∀ memo, ∃ b, ((s.rulebook.checkName s.inventory n).on memo).1 = .ok b
  room : ∀ e ∈ s.world.places.entries, ∀ memo, ∃ b, ((s.rulebook.check s.inventory e.2.room).on memo).1 = .ok b
  entity : ∀ e ∈ s.world.places.entries, ∀ memo, ∃ b, ((s.rulebook.check s.inventory e.2.entity).on memo).1 = .ok b
  isAccessible : ∀ e ∈ s.world.places.entries, ∃ b, (s.isAccessible e.1).answer = .ok b
  accessible : ∃ keys, s.accessible.answer = .ok keys
  rank : ∀ ignored tokens, s.chosen = some tokens → ∃ m, ((rank ignored).on s).1 = .ok m

variable {s : Session} {n : Name}

/-! ## The list is exact -/

/-- Looking a name up in all three places is looking up what it means. -/
theorem isDefined_iff : s.isDefined n = true ↔ s.rulebook.meaning n ≠ .undefined := by
  unfold isDefined
  cases hrule : s.settings.rule? n with
  | some rule =>
    rw [s.rulebook.meaning_of_rule hrule]
    simp
  | none =>
    cases hget : s.definitions.get? n with
    | some r =>
      rw [s.rulebook.meaning_of_binding hrule hget]
      have hn : n ∈ s.definitions := Table.mem_iff_get?.2 ⟨r, hget⟩
      rcases r with _ | (_ | _ | _ | _) | _ <;> simp [hn, Meaning.ofRequirement]
    | none =>
      rw [s.rulebook.meaning_of_unbound hrule hget]
      have hn : n ∉ s.definitions := Table.get?_eq_none_iff.1 hget
      show (_ || decide (n ∈ s.definitions) || (!s.settings.glitches && decide (n ∈ s.world.glitchDefinitions))) = true
        ↔ (if !s.settings.glitches && decide (n ∈ s.world.glitchDefinitions) then _ else _) ≠ _
      cases hglitch : !s.settings.glitches && decide (n ∈ s.world.glitchDefinitions) <;> simp [hn]

theorem mem_undefinedNames_iff_isDefined : n ∈ s.undefinedNames ↔ n ∈ s.referredNames ∧ s.isDefined n = false := by
  unfold undefinedNames
  rw [List.mem_filter, List.mem_eraseDups, Bool.not_eq_true']
  rfl

theorem mem_undefinedNames : n ∈ s.undefinedNames ↔ n ∈ s.referredNames ∧ s.rulebook.meaning n = .undefined := by
  have hdefined : s.isDefined n = false ↔ s.rulebook.meaning n = .undefined := by
    rw [← Bool.not_eq_true, isDefined_iff, not_not]
  rw [mem_undefinedNames_iff_isDefined, hdefined]

theorem neverResolves_iff : s.NeverResolves n ↔ s.rulebook.meaning n = .undefined := by
  constructor
  · intro h
    obtain ⟨f, hf, hmessages⟩ := h s.inventory
    rw [Query.answer_ofCheck] at hf
    rcases hanswer : ((s.rulebook.checkName s.inventory n).on ∅).1 with k | b <;> rw [hanswer] at hf <;> cases hf
    obtain rfl : k = n := (String.append_right_inj _).1 (List.cons.inj hmessages).1
    exact meaning_of_error hanswer
  · intro h held
    refine ⟨.ofCause (.undefinedName n), ?_, rfl⟩
    rw [Query.answer_ofCheck, checkName_of_undefined h]
    rfl

/-! ## An empty list -/

theorem meaning_of_undefinedNames_eq_nil (h : s.undefinedNames = []) {r : Requirement} (hr : r ∈ s.requirements)
    {k : Name} (hk : k ∈ r.references) : s.rulebook.meaning k ≠ .undefined := by
  intro hmean
  have hmem := mem_undefinedNames.2 ⟨List.mem_flatMap.2 ⟨r, hr, hk⟩, hmean⟩
  rw [h] at hmem
  exact List.not_mem_nil hmem

theorem mem_requirements_of_mem_places {e : LocationKey × Place} (he : e ∈ s.world.places.entries) :
    e.2.room ∈ s.requirements ∧ e.2.entity ∈ s.requirements := by
  have hplace : ∀ r ∈ [e.2.room, e.2.entity], r ∈ s.requirements := fun r hr =>
    List.mem_append_right _ (List.mem_flatMap.2 ⟨e.2, List.mem_map.2 ⟨e, he, rfl⟩, hr⟩)
  exact ⟨hplace _ (by simp), hplace _ (by simp)⟩

theorem closed_of_undefinedNames_eq_nil (h : s.undefinedNames = []) : s.rulebook.Closed := fun n _ hr _ =>
  meaning_of_undefinedNames_eq_nil h (List.mem_append_left _ (Table.mem_values.2 ⟨n, hr⟩))

theorem exists_checkEntry {e : LocationKey × Place} (hroom : ∃ b, s.first e.2.room = .ok b)
    (hentity : ∃ b, s.first e.2.entity = .ok b) : ∃ b, (s.checkEntry e).answer = .ok b := by
  obtain ⟨b, hb⟩ := hentity
  obtain ⟨_ | _, hroom⟩ := hroom
  · exact ⟨false, checkEntry_eq_ok.2 (.inr ⟨hroom, rfl⟩)⟩
  · exact ⟨b, checkEntry_eq_ok.2 (.inl ⟨hroom, hb⟩)⟩

theorem exists_rank {ignored : Tag} {tokens : List Token} (h : s.chosen = some tokens) (hnow : s.Checkable ignored)
    (hplus : ∀ t, (s.plus t).Checkable ignored) : ∃ m, ((rank ignored).on s).1 = .ok m := by
  rw [rank_eq ignored h]
  have hbaseline := reachable_eq_ok.2 ⟨hnow, rfl⟩
  obtain ⟨m, hm⟩ := exists_foldlM_set ∅ fun t (_ : t ∈ tokens.filter (· ∉ s.inventory)) =>
    ⟨s.gained ignored t, (opened_eq_ok hbaseline).2 ⟨hplus t, rfl⟩⟩
  exact ⟨m, bind_eq_ok.2 ⟨_, hbaseline, hm⟩⟩

/-- Where every name that is referred to means something, every requirement of the session is answered. -/
theorem exists_answer_of_mem (h : s.undefinedNames = []) {r : Requirement} (hr : r ∈ s.requirements)
    (held : Inventory) (memo : Memo) : ∃ b, ((s.rulebook.check held r).on memo).1 = .ok b :=
  exists_answer (closed_of_undefinedNames_eq_nil h) (fun _ hk => meaning_of_undefinedNames_eq_nil h hr hk) held memo

theorem exists_checkEntry_of_mem (h : s.undefinedNames = []) {e : LocationKey × Place}
    (he : e ∈ s.world.places.entries) : ∃ b, (s.checkEntry e).answer = .ok b := by
  obtain ⟨hroom, hentity⟩ := mem_requirements_of_mem_places he
  exact exists_checkEntry (exists_answer_of_mem h hroom s.inventory ∅) (exists_answer_of_mem h hentity s.inventory ∅)

theorem checkable_of_undefinedNames_eq_nil (h : s.undefinedNames = []) (ignored : Tag) : s.Checkable ignored := by
  intro e he _
  rw [isAccessible_of_mem he]
  exact exists_checkEntry_of_mem h he

theorem neverFails_of_undefinedNames_eq_nil (h : s.undefinedNames = []) : s.NeverFails where
  name n hn memo := by
    have hmean : s.rulebook.meaning n ≠ .undefined := isDefined_iff.1 (by simp [isDefined, hn])
    exact exists_checkName (closed_of_undefinedNames_eq_nil h) hmean s.inventory memo
  room e he memo := exists_answer_of_mem h (mem_requirements_of_mem_places he).1 s.inventory memo
  entity e he memo := exists_answer_of_mem h (mem_requirements_of_mem_places he).2 s.inventory memo
  isAccessible e he := by
    rw [isAccessible_of_mem he]
    exact exists_checkEntry_of_mem h he
  accessible := ⟨_, accessible_eq_ok.2 ⟨fun _ he => exists_checkEntry_of_mem h he, rfl⟩⟩
  rank ignored tokens hchosen :=
    -- one more token changes the inventory only, and the list does not depend on it
    exists_rank hchosen (checkable_of_undefinedNames_eq_nil h ignored) fun t =>
      checkable_of_undefinedNames_eq_nil (s := s.plus t) h ignored

end Session

/-- The undefined names are listed once each, in the order in which requirements first refer to them: those of the
definitions, then those of the locations. They are just the names referred to for which the question fails, whatever is
held, with a message that names them; and where there are none, nothing that is asked about the session fails, whatever
is held. -/
theorem undefinedNames_exact (s : Session) :
    s.undefinedNames.Nodup ∧
    s.undefinedNames.Pairwise (fun n k => s.referredNames.idxOf n < s.referredNames.idxOf k) ∧
    (∀ n, n ∈ s.undefinedNames ↔ n ∈ s.referredNames ∧ s.NeverResolves n) ∧
    (s.undefinedNames = [] → ∀ held, (s.holding held).NeverFails) := by
  have horder : s.undefinedNames.Pairwise fun n k => s.referredNames.idxOf n < s.referredNames.idxOf k :=
    (pairwise_eraseDups s.referredNames).filter _
  refine ⟨nodup_of_pairwise_idxOf (g := id) horder, horder, fun n => ?_, fun h held => ?_⟩
  · rw [Session.mem_undefinedNames, Session.neverResolves_iff]
  · exact Session.neverFails_of_undefinedNames_eq_nil (s := s.holding held) h

/-- A location asks for a name that is bound to nothing, or for one of two names that refer to each other. -/
def lostSession : Session :=
  knot.sessionWith ∅ (.ofClauses (.ofNames "lamp" ["lost"]) [.ofNames "y" []])

/-- Names that refer to each other mean something, so without the name that is bound to nothing all is answered. -/
theorem undefinedNames_exact_lostSession :
    lostSession.undefinedNames = ["lost"] ∧ lostSession.NeverResolves "lost" ∧
      (knot.sessionWith ∅ lampFirst).undefinedNames = [] ∧
      ∀ held, ((knot.sessionWith ∅ lampFirst).holding held).NeverFails := by
  obtain ⟨-, -, hexact, -⟩ := undefinedNames_exact lostSession
  obtain ⟨-, -, -, hnone⟩ := undefinedNames_exact (knot.sessionWith ∅ lampFirst)
  have hlost : lostSession.undefinedNames = ["lost"] := rfl
  have hmem : "lost" ∈ lostSession.undefinedNames := by
    rw [hlost]
    exact List.mem_singleton_self _
  exact ⟨hlost, ((hexact "lost").1 hmem).2, rfl, hnone rfl⟩

end Progression
