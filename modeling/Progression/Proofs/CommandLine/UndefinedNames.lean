import Mathlib.Data.List.Permutation
import Progression.Proofs.CommandLine.Playing
import Progression.Proofs.Session.Choosing
import Progression.Proofs.Session.Definedness
import Progression.Proofs.Session.Seals

/-!
# Which session the undefined names are those of

A report lists the undefined names of the session that is read, but its answers are those of the session that is made
ready, and where portraits are taken out these are two. Taking portraits out binds two names anew
(`Session.rebound`). So a name can be an undefined reference of the one session and not of the other: it becomes one if
it is a boss or an area that is left, means nothing and was not referred to, and it ceases to be one if it is bound
anew, or if only a requirement that is replaced refers to it (`mem_undefinedNames_without`). The report describes the
session that it answers for if no portrait is taken out or nothing of this kind happens, and else it does not
(`undefinedNames_of_run`).
-/

namespace Progression

namespace Portrait

/-- The bosses and the areas of the portraits that are left. -/
def demands (names : List Name) : List Name := (left names).map boss ++ (left names).map area

end Portrait

namespace Session

/-- The names that are bound anew when portraits are taken out. -/
def rebound : List Name := ["four_seal_bosses_killed", "can_complete_nest_of_evil_quest"]

/-- A definition of another name than those bound anew, or a location, refers to a name. -/
def RefersApart (s : Session) (n : Name) : Prop :=
  (∃ k r, s.definitions.get? k = some r ∧ k ∉ rebound ∧ n ∈ r.references) ∨
    ∃ p ∈ s.world.places.values, n ∈ p.room.references ∨ n ∈ p.entity.references

/-- No name becomes an undefined reference when portraits are taken out, and none ceases to be one. -/
structure KeepsUndefined (s : Session) (names : List Name) : Prop where
  /-- What is asked for from then on means something, or was referred to before. -/
  nothingNew : ∀ n ∈ Portrait.demands names, s.isDefined n = false → n ∈ s.referredNames
  /-- What meant nothing is not bound then, and is still referred to. -/
  nothingGone : ∀ n ∈ s.undefinedNames, n ∉ rebound ∧ (n ∈ Portrait.demands names ∨ s.RefersApart n)

variable {s t : Session} {n : Name} {names : List Name}

/-! ## Undefined references after portraits are taken out -/

theorem nodup_undefinedNames (s : Session) : s.undefinedNames.Nodup :=
  (nodup_of_pairwise_idxOf (g := id) (pairwise_eraseDups s.referredNames)).filter _

theorem mem_referredNames : n ∈ s.referredNames ↔
    (∃ k r, s.definitions.get? k = some r ∧ n ∈ r.references) ∨
      ∃ p ∈ s.world.places.values, n ∈ p.room.references ∨ n ∈ p.entity.references := by
  unfold referredNames requirements
  rw [List.flatMap_append, List.mem_append, List.mem_flatMap, List.mem_flatMap]
  simp only [Table.mem_values, List.mem_flatMap, List.mem_cons, List.not_mem_nil, or_false]
  constructor
  · rintro (⟨r, ⟨k, hk⟩, hn⟩ | ⟨r, ⟨p, hp, rfl | rfl⟩, hn⟩)
    · exact .inl ⟨k, r, hk, hn⟩
    · exact .inr ⟨p, hp, .inl hn⟩
    · exact .inr ⟨p, hp, .inr hn⟩
  · rintro (⟨k, r, hk, hn⟩ | ⟨p, hp, hn | hn⟩)
    · exact .inl ⟨r, ⟨k, hk⟩, hn⟩
    · exact .inr ⟨p.room, ⟨p, hp, .inl rfl⟩, hn⟩
    · exact .inr ⟨p.entity, ⟨p, hp, .inr rfl⟩, hn⟩

theorem RefersApart.referred (h : s.RefersApart n) : n ∈ s.referredNames := by
  rcases h with ⟨k, r, hk, -, hn⟩ | h
  · exact mem_referredNames.2 (.inl ⟨k, r, hk, hn⟩)
  · exact mem_referredNames.2 (.inr h)

theorem get?_without (k : Name) : (s.without names).definitions.get? k =
    if k = "can_complete_nest_of_evil_quest" then some (.allOf ((Portrait.left names).map Portrait.area))
    else if k = "four_seal_bosses_killed" then some (.allOf ((Portrait.left names).map Portrait.boss))
    else s.definitions.get? k := by
  unfold without
  rw [Table.get?_set, Table.get?_set]

theorem references_allOf_left {f : Portrait → String} (hf : ∀ p ∈ Portrait.all, Name.ofText (f p) = f p) :
    (Requirement.allOf ((Portrait.left names).map f)).references = (Portrait.left names).map f := by
  rw [Requirement.references_allOf, List.map_map]
  exact List.map_congr_left fun p hp => hf p (List.mem_filter.1 hp).1

theorem mem_referredNames_without :
    n ∈ (s.without names).referredNames ↔ n ∈ Portrait.demands names ∨ s.RefersApart n := by
  have hbosses : (Requirement.allOf ((Portrait.left names).map Portrait.boss)).references = _ :=
    references_allOf_left fun _ => Portrait.ofText_boss
  have hareas : (Requirement.allOf ((Portrait.left names).map Portrait.area)).references = _ :=
    references_allOf_left fun _ => Portrait.ofText_area
  rw [mem_referredNames, Portrait.demands, List.mem_append]
  simp only [get?_without]
  constructor
  · rintro (⟨k, r, hr, hn⟩ | hplaces)
    · split_ifs at hr with hquest hseal
      · cases hr
        rw [hareas] at hn
        exact .inl (.inr hn)
      · cases hr
        rw [hbosses] at hn
        exact .inl (.inl hn)
      · exact .inr (.inl ⟨k, r, hr, by simp [rebound, hquest, hseal], hn⟩)
    · exact .inr (.inr hplaces)
  · rintro ((hn | hn) | ⟨k, r, hr, hk, hn⟩ | hplaces)
    · exact .inl ⟨"four_seal_bosses_killed", _, rfl, by rwa [hbosses]⟩
    · exact .inl ⟨"can_complete_nest_of_evil_quest", _, rfl, by rwa [hareas]⟩
    · obtain ⟨hseal, hquest⟩ : k ≠ "four_seal_bosses_killed" ∧ k ≠ "can_complete_nest_of_evil_quest" := by
        simpa [rebound] using hk
      exact .inl ⟨k, r, by rw [if_neg hquest, if_neg hseal, hr], hn⟩
    · exact .inr hplaces

theorem isDefined_without : (s.without names).isDefined n = false ↔ n ∉ rebound ∧ s.isDefined n = false := by
  unfold isDefined without rebound
  simp [and_assoc, and_comm]

theorem mem_undefinedNames_without : n ∈ (s.without names).undefinedNames ↔
    n ∉ rebound ∧ s.isDefined n = false ∧ (n ∈ Portrait.demands names ∨ s.RefersApart n) := by
  rw [mem_undefinedNames_iff_isDefined, mem_referredNames_without, isDefined_without, and_comm, and_assoc]

theorem not_mem_rebound_of_mem_demands (h : n ∈ Portrait.demands names) : n ∉ rebound := by
  have hall : ∀ p ∈ Portrait.all, p.boss ∉ rebound ∧ p.area ∉ rebound := by decide
  rcases List.mem_append.1 h with h | h
  · obtain ⟨p, hp, rfl⟩ := List.mem_map.1 h
    exact (hall p (List.mem_filter.1 hp).1).1
  · obtain ⟨p, hp, rfl⟩ := List.mem_map.1 h
    exact (hall p (List.mem_filter.1 hp).1).2

theorem perm_undefinedNames_without :
    s.undefinedNames.Perm (s.without names).undefinedNames ↔ s.KeepsUndefined names := by
  rw [List.perm_ext_iff_of_nodup (nodup_undefinedNames s) (nodup_undefinedNames _)]
  constructor
  · intro h
    refine ⟨fun n hn hdefined => ?_, fun n hn => ?_⟩
    · have hmem := mem_undefinedNames_without.2 ⟨not_mem_rebound_of_mem_demands hn, hdefined, .inl hn⟩
      exact (mem_undefinedNames_iff_isDefined.1 ((h n).2 hmem)).1
    · obtain ⟨hbound, -, hreferred⟩ := mem_undefinedNames_without.1 ((h n).1 hn)
      exact ⟨hbound, hreferred⟩
  · intro h n
    rw [mem_undefinedNames_without]
    constructor
    · intro hn
      obtain ⟨hbound, hreferred⟩ := h.nothingGone n hn
      exact ⟨hbound, (mem_undefinedNames_iff_isDefined.1 hn).2, hreferred⟩
    · rintro ⟨-, hdefined, hn | hn⟩
      · exact mem_undefinedNames_iff_isDefined.2 ⟨h.nothingNew n hn hdefined, hdefined⟩
      · exact mem_undefinedNames_iff_isDefined.2 ⟨hn.referred, hdefined⟩

/-- Where taking portraits out by some names succeeds, the session after it is the one without them. -/
theorem eq_without_of_removePortraits {percent : Option Nat} (hne : names ≠ [])
    (h : (removePortraits names).on s = (.ok percent, t)) : t = s.without names := by
  have hstep := removePortraits_step names s
  rw [h] at hstep
  cases hstep with
  | none hgame hchosen hnames => exact absurd hnames hne
  | some hgame hchosen hnames hremoved hleft =>
    obtain rfl := eq_of_removablePortraits_eq_ok hremoved
    rw [hleft, ← Portrait.left, Portrait.left_filter]
    rfl

end Session

namespace CommandLine

variable {args : Arguments} {s t : Session} {percent : Option Nat}

/-- Choosing and holding tokens changes no definition, so only taking portraits out can. -/
theorem Prepares.undefinedNames_eq (h : Prepares args s t percent) :
    t.undefinedNames = if splitList args.removePortraits = [] then s.undefinedNames
      else (s.without (splitList args.removePortraits)).undefinedNames := by
  obtain ⟨u, held, hremoved, -, -, rfl⟩ := h
  show u.undefinedNames = _
  unfold takeOut at hremoved
  by_cases hnone : splitList args.removePortraits = []
  · rw [if_pos hnone]
    rw [hnone] at hremoved
    cases hremoved
    rfl
  · rw [if_neg hnone]
    rw [if_neg (by simpa using hnone)] at hremoved
    rw [Session.eq_without_of_removePortraits hnone hremoved]

end CommandLine

open CommandLine in
/-- The undefined names of a report are those of the session that is read. They are also those of the session that the
report answers for if and only if no portrait is taken out or taking portraits out keeps the undefined references. -/
theorem undefinedNames_of_run (args : Arguments) (view : String → FileView) (r : Report)
    (h : (run args view).answer = .ok r) :
    ∃ s t, sessionOf args view = .ok s ∧ Played args s t r ∧
      (r.undefinedNames.Perm t.undefinedNames ↔
        splitList args.removePortraits = [] ∨ s.KeepsUndefined (splitList args.removePortraits)) ∧
      (splitList args.removePortraits = [] → r.undefinedNames = t.undefinedNames) := by
  obtain ⟨s, t, hs, hplayed⟩ := run_eq_ok.1 h
  refine ⟨s, t, hs, hplayed, ?_, fun hnone => ?_⟩
  · rw [hplayed.undefinedNames, hplayed.prepares.undefinedNames_eq]
    by_cases hnone : splitList args.removePortraits = []
    · simp [hnone]
    · rw [if_neg hnone, or_iff_right hnone]
      exact Session.perm_undefinedNames_without
  · rw [hplayed.undefinedNames, hplayed.prepares.undefinedNames_eq, if_pos hnone]

namespace CommandLine

/-- A run on the game with portraits that takes all of them out. -/
def allOut : Arguments where
  requirements := "rules.json"
  settings := none
  game := some "por"
  villagers := ""
  portraits := ""
  glitches := false
  openWorld := false
  items := ""
  flags := ""
  removePortraits := "portrait city of haze,portrait sandy grave,portrait nation of fools,portrait forest of doom," ++
    "portrait dark academy,portrait burnt paradise,portrait forgotten city,portrait 13th street"
  rank := false
  output := some "report.json"

/-- The session on a world of the game with portraits. -/
def playedOn (w : World) : Session := .start w ⟨.por, false, false⟩

/-- The same session without portraits, and with nothing held. -/
def cleared (w : World) : Session := equipped ((playedOn w).without (Portrait.all.map Portrait.name)) []

theorem splitList_allOut : splitList allOut.removePortraits = Portrait.all.map Portrait.name := by decide +kernel

theorem prepares_allOut (w : World) : Prepares allOut (playedOn w) (cleared w) (some 0) := by
  refine ⟨_, [], ?_, rfl, rfl, rfl⟩
  rw [takeOut, splitList_allOut]
  exact Session.on_removePortraits_of_ne_nil rfl rfl (by decide) (by decide)

theorem sessionOf_allOut {text : String} {d : Document} {w : World} (hd : Document.ofText text = .ok d)
    (hw : World.ofDocument ∅ d = .ok w) : sessionOf allOut (fun _ => .text text) = .ok (playedOn w) :=
  sessionOf_of_text rfl hd rfl hw

/-- A door asks for a name that means nothing. -/
def lostText : String := "\x7b\"Defs\": \x7b\"beat game\": true, \"door\": \"lost\"\x7d, \"Rooms\": \x7b\x7d\x7d"

def lostRules : Document :=
  .object [("Defs", .object [("beat game", .bool true), ("door", .text "lost")]), ("Rooms", .object [])]

def lostWorld : World :=
  ⟨∅, .ofList [("beat_game", .atom (.literal true)), ("door", .ofClauses (.ofNames "lost" []) [])], ∅, ∅, ∅⟩

/-- The game is won where the seal is open, and the rules do not say when it is. -/
def sealText : String := "\x7b\"Defs\": \x7b\"beat game\": \"four seal bosses killed\"\x7d, \"Rooms\": \x7b\x7d\x7d"

def sealRules : Document :=
  .object [("Defs", .object [("beat game", .text "four seal bosses killed")]), ("Rooms", .object [])]

def sealWorld : World :=
  ⟨∅, .ofList [("beat_game", .ofClauses (.ofNames "four_seal_bosses_killed" []) [])], ∅, ∅, ∅⟩

end CommandLine

open CommandLine in
/-- Without any portrait nothing new is asked for, and the door still asks for what it asked for. -/
theorem undefinedNames_of_run_allOut :
    ∃ r t, (run allOut fun _ => .text lostText).answer = .ok r ∧ Played allOut (playedOn lostWorld) t r ∧
      r.undefinedNames = ["lost"] ∧ r.undefinedNames.Perm t.undefinedNames := by
  have hd : Document.ofText lostText = .ok lostRules := by cbv
  have hs := sessionOf_allOut hd (w := lostWorld) rfl
  have hplayed : Played allOut (playedOn lostWorld) (cleared lostWorld) ⟨true, [], [], some 0, ["lost"]⟩ :=
    ⟨prepares_allOut lostWorld, rfl, rfl, rfl, rfl⟩
  have hrun := run_eq_ok.2 ⟨_, _, hs, hplayed⟩
  obtain ⟨s, t, hs', hplayed', hiff, -⟩ := undefinedNames_of_run _ _ _ hrun
  obtain rfl : playedOn lostWorld = s := Except.ok.inj (hs.symm.trans hs')
  refine ⟨_, t, hrun, hplayed', rfl, hiff.2 (.inr ⟨?_, ?_⟩)⟩
  · rw [splitList_allOut]
    exact fun n hn => absurd hn List.not_mem_nil
  · intro n hn
    obtain rfl : n = "lost" := List.mem_singleton.1 hn
    exact ⟨by decide, .inr (.inl ⟨"door", _, rfl, by decide, List.mem_singleton_self _⟩)⟩

open CommandLine in
/-- A name that is bound when portraits are taken out is listed although it means something then, and the game is won
with it. -/
theorem undefinedNames_of_run_not_sealRules :
    ¬ ∀ args view r, (run args view).answer = .ok r →
      ∃ s t, sessionOf args view = .ok s ∧ Played args s t r ∧ r.undefinedNames.Perm t.undefinedNames := by
  intro h
  have hd : Document.ofText sealText = .ok sealRules := by cbv
  have hs := sessionOf_allOut hd (w := sealWorld) rfl
  have hplayed : Played allOut (playedOn sealWorld) (cleared sealWorld)
      ⟨true, [], [], some 0, ["four_seal_bosses_killed"]⟩ := ⟨prepares_allOut sealWorld, rfl, rfl, rfl, rfl⟩
  obtain ⟨s, t, hs', hplayed', hperm⟩ := h _ _ _ (run_eq_ok.2 ⟨_, _, hs, hplayed⟩)
  obtain rfl : playedOn sealWorld = s := Except.ok.inj (hs.symm.trans hs')
  rw [hplayed'.prepares.undefinedNames_eq, splitList_allOut] at hperm
  have hnone : ["four_seal_bosses_killed"].Perm [] := hperm
  cases hnone.eq_nil

end Progression
