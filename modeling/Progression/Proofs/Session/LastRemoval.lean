import Progression.Proofs.Session.Portraits
import Progression.Proofs.Session.Together

/-!
# Taking portraits out once more

Portraits that are taken out are taken out in place of those before. A list with a name binds both the seal and the
quest of Nest of Evil anew, in place of what an earlier list bound them to, so the session is the same as if there had
been no earlier list (`Session.without_without`). A list without any name puts only the seal back: the quest still asks
for what the earlier list left (`Session.without_withAll`). So the last list wins, whatever is asked next, unless it is
the only one of the two without a name (`lastRemovalWins_iff`).
-/

namespace Progression

namespace Session

/-- Whatever else is done, be it to the inventory or the choice of the tokens, both sessions answer the same next. -/
def AnswersAlike (s s' : Session) : Prop :=
  ∀ ops op, (s.afterAll ops).answerTo op = (s'.afterAll ops).answerTo op

/-- After two lists of portraits are taken out, a session answers as if only the second one had been. -/
def LastRemovalWins (names names' : List Name) : Prop :=
  ∀ s : Session, s.settings.game = .por → s.chosen = none → ∀ percent percent',
    s.answerTo (.removePortraits names) = .ok percent →
    (s.after (.removePortraits names)).answerTo (.removePortraits names') = .ok percent' →
    ((s.after (.removePortraits names)).after (.removePortraits names')).AnswersAlike
      (s.after (.removePortraits names'))

/-- The session after all portraits are put back, by a list without any name. -/
def withAll (s : Session) : Session := { s with
  removedPortraits := []
  definitions := s.definitions.set "four_seal_bosses_killed" (.allOf Portrait.sealBosses) }

variable {s : Session} {names names' : List Name}

/-! ## One list after the other -/

theorem without_without (s : Session) (names names' : List Name) :
    (s.without names).without names' = s.without names' := by
  unfold without
  congr 1
  rw [Table.set_set_of_ne _ (by decide), Table.set_set_of_ne _ (by decide)]

theorem withAll_without (s : Session) (names : List Name) : s.withAll.without names = s.without names := by
  unfold without withAll
  congr 1
  rw [Table.set_set]

theorem withAll_withAll (s : Session) : s.withAll.withAll = s.withAll := by
  unfold withAll
  congr 1
  exact Table.set_set _ _ _ _

/-- The quest of Nest of Evil stays as the earlier list left it. -/
theorem without_withAll (s : Session) (names : List Name) :
    (s.without names).withAll = { s.withAll with
      definitions := s.withAll.definitions.set "can_complete_nest_of_evil_quest"
        (.allOf ((Portrait.left names).map Portrait.area)) } := by
  unfold without withAll
  congr 1
  exact Table.set_set_of_ne _ (by decide) _ _ _

theorem after_removePortraits_nil (hgame : s.settings.game = .por) (hchosen : s.chosen = none) :
    s.after (.removePortraits []) = s.withAll :=
  congrArg Prod.snd (on_removePortraits_nil hgame hchosen)

theorem after_removePortraits_of_ne_nil (hgame : s.settings.game = .por) (hchosen : s.chosen = none)
    (hvalid : ∀ n ∈ names, Portrait.IsName n) (hne : names ≠ []) :
    s.after (.removePortraits names) = s.without names :=
  congrArg Prod.snd (on_removePortraits_of_ne_nil hgame hchosen hvalid hne)

/-- Taking portraits out keeps the game and the tokens. -/
theorem after_removePortraits_keeps (hgame : s.settings.game = .por) (hchosen : s.chosen = none)
    (hvalid : ∀ n ∈ names, Portrait.IsName n) :
    (s.after (.removePortraits names)).settings.game = .por ∧ (s.after (.removePortraits names)).chosen = none := by
  by_cases hne : names = []
  · subst hne
    rw [after_removePortraits_nil hgame hchosen]
    exact ⟨hgame, hchosen⟩
  · rw [after_removePortraits_of_ne_nil hgame hchosen hvalid hne]
    exact ⟨hgame, hchosen⟩

theorem after_removePortraits_twice (hgame : s.settings.game = .por) (hchosen : s.chosen = none)
    (hvalid : ∀ n ∈ names, Portrait.IsName n) (hvalid' : ∀ n ∈ names', Portrait.IsName n)
    (h : names' = [] → names = []) :
    (s.after (.removePortraits names)).after (.removePortraits names') = s.after (.removePortraits names') := by
  obtain ⟨hgame', hchosen'⟩ := after_removePortraits_keeps hgame hchosen hvalid
  by_cases hne' : names' = []
  · obtain rfl := hne'
    obtain rfl := h rfl
    rw [after_removePortraits_nil hgame' hchosen', after_removePortraits_nil hgame hchosen, withAll_withAll]
  · rw [after_removePortraits_of_ne_nil hgame' hchosen' hvalid' hne',
      after_removePortraits_of_ne_nil hgame hchosen hvalid' hne']
    by_cases hne : names = []
    · obtain rfl := hne
      rw [after_removePortraits_nil hgame hchosen, withAll_without]
    · rw [after_removePortraits_of_ne_nil hgame hchosen hvalid hne, without_without]

/-! ## The quest that stays bound -/

/-- A check does not stop at a name that is bound. -/
theorem checkName_ne_undefined {n k : Name} {r : Requirement} (hrule : s.settings.rule? k = none)
    (hk : s.definitions.get? k = some r) :
    (s.checkName n).answer ≠ .error (.inside (.ofCause (.undefinedName k)) (.checkingName n)) := by
  intro h
  rw [checkName, Query.answer_within, Query.answer_ofCheck] at h
  rcases hcheck : ((s.rulebook.checkName s.inventory n).on ∅).1 with e | b
  · rw [hcheck] at h
    cases h
    have hmean := meaning_of_error hcheck
    rw [Rulebook.meaning_of_binding hrule hk] at hmean
    rcases r with _ | (_ | _ | _ | _) | _ <;> cases hmean
  · rw [hcheck] at h
    cases h

/-- Where nothing is bound, the quest means something after a list with a name, even if all portraits are put back. -/
theorem not_alike_portraitSession (names : List Name) :
    ¬ (portraitSession.without names).withAll.AnswersAlike portraitSession.withAll := by
  intro h
  -- the first list has bound it, and the second one leaves it alone
  have hbound : (portraitSession.without names).withAll.definitions.get? "can_complete_nest_of_evil_quest" =
      some (.allOf ((Portrait.left names).map Portrait.area)) := by
    rw [without_withAll]
    exact (Table.get?_set _ _ _ _).trans (if_pos rfl)
  have hunbound : portraitSession.withAll.answerTo (.inquire (.name "can_complete_nest_of_evil_quest")) =
      .error (.inside (.ofCause (.undefinedName "can_complete_nest_of_evil_quest"))
        (.checkingName "can_complete_nest_of_evil_quest")) := rfl
  exact checkName_ne_undefined rfl hbound ((h [] (.inquire (.name "can_complete_nest_of_evil_quest"))).trans hunbound)

theorem exists_answer_removePortraits_twice (hgame : s.settings.game = .por) (hchosen : s.chosen = none)
    (hvalid : ∀ n ∈ names, Portrait.IsName n) (hvalid' : ∀ n ∈ names', Portrait.IsName n) :
    ∃ percent, (s.after (.removePortraits names)).answerTo (.removePortraits names') = .ok percent := by
  obtain ⟨hgame', hchosen'⟩ := after_removePortraits_keeps hgame hchosen hvalid
  exact exists_answer_removePortraits hgame' hchosen' hvalid'

theorem LastRemovalWins.eq_nil (h : LastRemovalWins names []) (hvalid : ∀ n ∈ names, Portrait.IsName n) :
    names = [] := by
  refine Classical.byContradiction fun hne => ?_
  obtain ⟨percent, hfirst⟩ := exists_answer_removePortraits (s := portraitSession) rfl rfl hvalid
  obtain ⟨percent', hsecond⟩ := exists_answer_removePortraits_twice (s := portraitSession) rfl rfl hvalid
    (List.forall_mem_nil Portrait.IsName)
  have halike := h portraitSession rfl rfl percent percent' hfirst hsecond
  rw [after_removePortraits_of_ne_nil rfl rfl hvalid hne, after_removePortraits_nil rfl rfl,
    after_removePortraits_nil rfl rfl] at halike
  exact not_alike_portraitSession names halike

end Session

/-- In the game with portraits, and before the tokens are chosen, portraits can be taken out by names of portraits, and
once more after that. The last list wins if and only if it has a name or the first one has none. If only the first one
has a name, all is as after the second one, but the quest of Nest of Evil asks for the areas that the first one left. -/
theorem lastRemovalWins_iff (names names' : List Name) (hvalid : ∀ n ∈ names, Portrait.IsName n)
    (hvalid' : ∀ n ∈ names', Portrait.IsName n) :
    (Session.LastRemovalWins names names' ↔ (names' = [] → names = [])) ∧
    ∀ s : Session, s.settings.game = .por → s.chosen = none →
      (∃ percent, s.answerTo (.removePortraits names) = .ok percent) ∧
      (∃ percent, (s.after (.removePortraits names)).answerTo (.removePortraits names') = .ok percent) ∧
      (names ≠ [] → (s.after (.removePortraits names)).after (.removePortraits []) =
        { s.after (.removePortraits []) with
          definitions := (s.after (.removePortraits [])).definitions.set "can_complete_nest_of_evil_quest"
            (.allOf ((Portrait.left names).map Portrait.area)) }) := by
  refine ⟨⟨?_, fun h s hgame hchosen _ _ _ _ ops op => ?_⟩, fun s hgame hchosen => ⟨?_, ?_, fun hne => ?_⟩⟩
  · rintro hwins rfl
    exact hwins.eq_nil hvalid
  · rw [Session.after_removePortraits_twice hgame hchosen hvalid hvalid' h]
  · exact Session.exists_answer_removePortraits hgame hchosen hvalid
  · exact Session.exists_answer_removePortraits_twice hgame hchosen hvalid hvalid'
  · rw [Session.after_removePortraits_of_ne_nil hgame hchosen hvalid hne,
      Session.after_removePortraits_nil (s := s.without names) hgame hchosen,
      Session.after_removePortraits_nil hgame hchosen, Session.without_withAll]

/-- A list that names another portrait wins, a list without any name does not. -/
theorem lastRemovalWins_iff_academy :
    Session.LastRemovalWins ["portrait_city_of_haze", "portrait_nest_of_evil"] ["portrait_dark_academy"] ∧
      ¬ Session.LastRemovalWins ["portrait_city_of_haze", "portrait_nest_of_evil"] [] := by
  refine ⟨(lastRemovalWins_iff _ _ (by decide) (by decide)).1.2 nofun, fun h => ?_⟩
  exact List.cons_ne_nil _ _ ((lastRemovalWins_iff _ _ (by decide) (by decide)).1.1 h rfl)

/-- A session in which all areas but the City of Haze are cleared. -/
def hazeSession : Session :=
  .start ⟨∅, .ofList (("can_complete_nest_of_evil_quest", .allOf (Portrait.all.map Portrait.area)) ::
    Portrait.all.map fun p => (p.area, .atom (.literal (p.area ≠ "cityofhaze")))), ∅, ∅, ∅⟩ ⟨.por, false, false⟩

/-- The quest of Nest of Evil does not ask for the City of Haze, which is back in the game. -/
theorem lastRemovalWins_not_nil :
    ¬ ∀ names names' : List Name, (∀ n ∈ names, Portrait.IsName n) → (∀ n ∈ names', Portrait.IsName n) →
      Session.LastRemovalWins names names' := by
  intro h
  have halike := h ["portrait_city_of_haze"] [] (by decide) (by decide) hazeSession rfl rfl _ _ rfl rfl []
    (.inquire (.name "can_complete_nest_of_evil_quest"))
  have hstale : ((hazeSession.after (.removePortraits ["portrait_city_of_haze"])).after
      (.removePortraits [])).answerTo (.inquire (.name "can_complete_nest_of_evil_quest")) = .ok true := rfl
  have hfresh : (hazeSession.after (.removePortraits [])).answerTo
      (.inquire (.name "can_complete_nest_of_evil_quest")) = .ok false := rfl
  cases hstale.symm.trans (halike.trans hfresh)

end Progression
