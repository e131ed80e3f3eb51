import Progression.Proofs.Session.Choosing

/-!
# Taking portraits out

Only names of portraits can be taken out, and Nest of Evil is passed over (`Session.removablePortraits_of_isName`). What
is then left depends on which portraits are named, not on how often or in which order (`Portrait.left_congr`). So two
lists that name the same portraits, Nest of Evil apart, are taken out alike, with one exception: a list without any
name puts the four bosses back that guard the seal at first, while one that names just Nest of Evil asks for the bosses
and the areas of all portraits (`removesAlike_iff`).
-/

namespace Progression

namespace Portrait

/-- The name of a portrait, be it Nest of Evil or one that can be taken out. -/
def IsName (n : Name) : Prop := n = nestOfEvil ∨ ∃ p ∈ all, p.name = n

instance (n : Name) : Decidable (IsName n) :=
  inferInstanceAs (Decidable (n = nestOfEvil ∨ ∃ p ∈ all, p.name = n))

/-- The portraits that are left when those with some names are taken out. -/
def left (names : List Name) : List Portrait := all.filter fun p => p.name ∉ names

theorem name_ne_nestOfEvil {p : Portrait} (hp : p ∈ all) : p.name ≠ nestOfEvil := by
  have hall : ∀ p ∈ all, p.name ≠ nestOfEvil := by decide
  exact hall p hp

/-- Which portraits are left depends on which are named, and not on Nest of Evil. -/
theorem left_congr {names names' : List Name} (h : ∀ n, n ≠ nestOfEvil → (n ∈ names ↔ n ∈ names')) :
    left names = left names' := by
  refine List.filter_congr fun p hp => ?_
  have hname := h p.name (name_ne_nestOfEvil hp)
  simp only [hname]

/-- Nest of Evil is none of the portraits that can be left. -/
theorem left_filter (names : List Name) : left (names.filter (· ≠ nestOfEvil)) = left names :=
  left_congr fun n hn => by simp [hn]

theorem exists_named? {n : Name} (h : IsName n) (hn : n ≠ nestOfEvil) : ∃ p, named? n = some p := by
  obtain ⟨p, hp, hname⟩ := h.resolve_left hn
  have hsome : (all.find? (·.name = n)).isSome := List.find?_isSome.2 ⟨p, hp, decide_eq_true hname⟩
  exact Option.isSome_iff_exists.1 hsome

end Portrait

namespace Session

/-- Two lists of names are taken out alike: with the same answer, the same requirements for the seal and for the quest
of Nest of Evil, and the same portraits out of the game. -/
structure RemovesAlike (s : Session) (names names' : List Name) : Prop where
  answer : ((removePortraits names).on s).1 = ((removePortraits names').on s).1
  bosses : ((removePortraits names).on s).2.definitions.get? "four_seal_bosses_killed" =
    ((removePortraits names').on s).2.definitions.get? "four_seal_bosses_killed"
  areas : ((removePortraits names).on s).2.definitions.get? "can_complete_nest_of_evil_quest" =
    ((removePortraits names').on s).2.definitions.get? "can_complete_nest_of_evil_quest"
  removed : ∀ n, n ∈ ((removePortraits names).on s).2.removedPortraits ↔
    n ∈ ((removePortraits names').on s).2.removedPortraits

variable {s : Session} {names names' : List Name}

theorem removablePortraits_of_isName (h : ∀ n ∈ names, Portrait.IsName n) :
    removablePortraits names = .ok (names.filter (· ≠ Portrait.nestOfEvil)) := by
  unfold removablePortraits
  rw [mapM_eq_ok, List.forall₂_same]
  intro n hn
  obtain ⟨hmem, hne⟩ := List.mem_filter.1 hn
  obtain ⟨p, hp⟩ := Portrait.exists_named? (h n hmem) (of_decide_eq_true hne)
  rw [hp]

/-- The session after portraits are taken out by at least one name. -/
def without (s : Session) (names : List Name) : Session := { s with
  removedPortraits := names.filter (· ≠ Portrait.nestOfEvil)
  definitions := (s.definitions.set "four_seal_bosses_killed" (.allOf ((Portrait.left names).map Portrait.boss))).set
    "can_complete_nest_of_evil_quest" (.allOf ((Portrait.left names).map Portrait.area)) }

theorem on_removePortraits_nil (hgame : s.settings.game = .por) (hchosen : s.chosen = none) :
    (removePortraits []).on s = (.ok none, { s with
      removedPortraits := []
      definitions := s.definitions.set "four_seal_bosses_killed" (.allOf Portrait.sealBosses) }) := by
  have hstep := removePortraits_step [] s
  generalize (removePortraits []).on s = p at hstep ⊢
  cases hstep with
  | otherGame hgame' => exact absurd hgame hgame'
  | late _ hchosen' =>
    rw [hchosen] at hchosen'
    cases hchosen'
  | unknown _ _ hremoved => cases hremoved
  | none _ _ _ => rfl
  | some _ _ hnames _ _ => exact absurd rfl hnames

theorem on_removePortraits_of_ne_nil (hgame : s.settings.game = .por) (hchosen : s.chosen = none)
    (hvalid : ∀ n ∈ names, Portrait.IsName n) (hne : names ≠ []) :
    (removePortraits names).on s = (.ok (some (nestOfEvilPercent (Portrait.left names))), s.without names) := by
  have hok := removablePortraits_of_isName hvalid
  have hstep := removePortraits_step names s
  generalize (removePortraits names).on s = p at hstep ⊢
  cases hstep with
  | otherGame hgame' => exact absurd hgame hgame'
  | late _ hchosen' =>
    rw [hchosen] at hchosen'
    cases hchosen'
  | unknown _ _ hremoved =>
    rw [hok] at hremoved
    cases hremoved
  | none _ _ hnames => exact absurd hnames hne
  | @some _ _ _ removed hremoved left hleft =>
    obtain rfl := Except.ok.inj (hok.symm.trans hremoved)
    rw [hleft, ← Portrait.left, Portrait.left_filter]
    rfl

theorem exists_answer_removePortraits (hgame : s.settings.game = .por) (hchosen : s.chosen = none)
    (hvalid : ∀ n ∈ names, Portrait.IsName n) : ∃ percent, ((removePortraits names).on s).1 = .ok percent := by
  by_cases hne : names = []
  · subst hne
    rw [on_removePortraits_nil hgame hchosen]
    exact ⟨none, rfl⟩
  · rw [on_removePortraits_of_ne_nil hgame hchosen hvalid hne]
    exact ⟨_, rfl⟩

theorem removesAlike_of_ne_nil (hgame : s.settings.game = .por) (hchosen : s.chosen = none)
    (hvalid : ∀ n ∈ names, Portrait.IsName n) (hvalid' : ∀ n ∈ names', Portrait.IsName n)
    (hsame : ∀ n, n ≠ Portrait.nestOfEvil → (n ∈ names ↔ n ∈ names')) (hne : names ≠ []) (hne' : names' ≠ []) :
    s.RemovesAlike names names' := by
  have hrun := on_removePortraits_of_ne_nil hgame hchosen hvalid hne
  have hrun' := on_removePortraits_of_ne_nil hgame hchosen hvalid' hne'
  have hleft : Portrait.left names = Portrait.left names' := Portrait.left_congr hsame
  have hdefinitions : (s.without names).definitions = (s.without names').definitions := by
    unfold without
    rw [hleft]
  refine ⟨?_, ?_, ?_, fun n => ?_⟩
  · rw [hrun, hrun', hleft]
  · rw [hrun, hrun', hdefinitions]
  · rw [hrun, hrun', hdefinitions]
  · rw [hrun, hrun']
    simp only [without, List.mem_filter, decide_eq_true_eq]
    constructor
    · rintro ⟨hmem, hn⟩
      exact ⟨(hsame n hn).1 hmem, hn⟩
    · rintro ⟨hmem, hn⟩
      exact ⟨(hsame n hn).2 hmem, hn⟩

/-- Only the list without any name leaves the share of the map as it is. -/
theorem eq_nil_of_answer_eq (hgame : s.settings.game = .por) (hchosen : s.chosen = none)
    (hvalid : ∀ n ∈ names, Portrait.IsName n)
    (h : ((removePortraits names).on s).1 = ((removePortraits []).on s).1) : names = [] := by
  refine Classical.byContradiction fun hne => ?_
  rw [on_removePortraits_of_ne_nil hgame hchosen hvalid hne, on_removePortraits_nil hgame hchosen] at h
  cases h

end Session

/-- In the game with portraits, and before the tokens are chosen, portraits can be taken out by any names of portraits.
Two lists that name the same portraits, Nest of Evil apart, are taken out alike if and only if both or none of them are
without any name. -/
theorem removesAlike_iff (s : Session) (names names' : List Name) (hgame : s.settings.game = .por)
    (hchosen : s.chosen = none) (hvalid : ∀ n ∈ names, Portrait.IsName n) (hvalid' : ∀ n ∈ names', Portrait.IsName n)
    (hsame : ∀ n, n ≠ Portrait.nestOfEvil → (n ∈ names ↔ n ∈ names')) :
    (∃ percent, ((Session.removePortraits names).on s).1 = .ok percent) ∧
      (s.RemovesAlike names names' ↔ (names = [] ↔ names' = [])) := by
  refine ⟨Session.exists_answer_removePortraits hgame hchosen hvalid, fun h => ⟨?_, ?_⟩, fun h => ?_⟩
  · rintro rfl
    exact Session.eq_nil_of_answer_eq hgame hchosen hvalid' h.answer.symm
  · rintro rfl
    exact Session.eq_nil_of_answer_eq hgame hchosen hvalid h.answer
  · by_cases hne : names = []
    · obtain rfl := hne
      obtain rfl := h.1 rfl
      exact ⟨rfl, rfl, rfl, fun _ => Iff.rfl⟩
    · exact Session.removesAlike_of_ne_nil hgame hchosen hvalid hvalid' hsame hne (mt h.2 hne)

/-- Order, repetitions and Nest of Evil make no difference next to another name. -/
theorem removesAlike_iff_portraitSession :
    portraitSession.RemovesAlike
      ["portrait_dark_academy", "portrait_nest_of_evil", "portrait_city_of_haze", "portrait_dark_academy"]
      ["portrait_city_of_haze", "portrait_dark_academy"] := by
  refine (removesAlike_iff portraitSession _ _ rfl rfl (by decide) (by decide) fun n hn => ?_).2.2 (by simp)
  replace hn : n ≠ "portrait_nest_of_evil" := hn
  simp only [List.mem_cons, List.not_mem_nil, or_false, hn, false_or]
  tauto

/-- Nest of Evil alone is not taken out like no portrait at all: with it, all bosses and areas are asked for. -/
theorem removesAlike_not_nestOfEvil :
    ¬ ∀ (s : Session) (names names' : List Name), s.settings.game = .por → s.chosen = none →
      (∀ n ∈ names, Portrait.IsName n) → (∀ n ∈ names', Portrait.IsName n) →
      (∀ n, n ≠ Portrait.nestOfEvil → (n ∈ names ↔ n ∈ names')) → s.RemovesAlike names names' := by
  intro h
  have halike := h portraitSession [] [Portrait.nestOfEvil] rfl rfl (by decide) (by decide) fun n hn => by simp [hn]
  have hanswer : (Except.ok none : Except Failure (Option Nat)) = .ok (some 888) := halike.answer
  cases hanswer

end Progression
