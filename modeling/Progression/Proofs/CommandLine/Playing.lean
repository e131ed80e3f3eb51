import Progression.CommandLine.Run
import Progression.Proofs.Session.Operations

/-!
# A run, step by step

A run reads a session from its files (`sessionOf`), makes it ready as the arguments ask (`Prepares`), and asks its
questions about what is ready. So a report goes back to two sessions: its undefined names are those of the session that
is read, and all else is answered by the one that is made ready (`Played`). A run comes to an end with just these
reports (`run_eq_ok`).
-/

namespace Progression

namespace CommandLine

/-- The session that the arguments and the files give: a new one on the world that is read. -/
def sessionOf (args : Arguments) (view : String → FileView) : Except Failure Session := do
  let settings ← settingsOf args view
  let flags := FlagNames.ofTexts (splitList args.villagers) (splitList args.portraits)
  return .start (← World.ofFile flags args.requirements (view args.requirements)) settings

theorem sessionOf_of_text {args : Arguments} {view : String → FileView} {text : String} {d : Document} {w : World}
    {settings : Settings} (hview : view args.requirements = .text text) (hd : Document.ofText text = .ok d)
    (hsettings : settingsOf args view = .ok settings)
    (hw : World.ofDocument (.ofTexts (splitList args.villagers) (splitList args.portraits)) d = .ok w) :
    sessionOf args view = .ok (.start w settings) := by
  have hfile : World.ofFile (.ofTexts (splitList args.villagers) (splitList args.portraits)) args.requirements
      (.text text) = .ok w :=
    bind_eq_ok.2 ⟨text, rfl, bind_eq_ok.2 ⟨d, within_eq_ok.2 hd, within_eq_ok.2 hw⟩⟩
  unfold sessionOf
  rw [hview]
  exact bind_eq_ok.2 ⟨settings, hsettings, bind_eq_ok.2 ⟨w, hfile, rfl⟩⟩

/-- Takes out the portraits that the arguments name, if they name any. -/
def takeOut (args : Arguments) : Command (Option Nat) :=
  if (splitList args.removePortraits).isEmpty then pure none
  else Session.removePortraits (splitList args.removePortraits)

/-- The session that is played once portraits are out: the tokens are chosen, and some are held. -/
def equipped (s : Session) (held : List Token) : Session :=
  { s with chosen := some (s.boundItems ++ s.progressionFlags), inventory := .ofList held }

/-- The ranking that the arguments ask for, or an empty one. -/
def ranked (args : Arguments) : Command (List (Token × Nat)) := do
  if args.rank then
    let ranking := Report.order (← Session.rank .noProgression)
    for e in ranking do Command.tell (.ranked e.1 e.2)
    return ranking
  else return []

/-- A run in its steps. -/
theorem play_eq (args : Arguments) : play args = (do
    let undefinedNames := (← get).undefinedNames
    for n in undefinedNames do Command.tell (.undefined n)
    let percent ← takeOut args
    Session.chooseTokens
    let tokens ← Command.ask fun _ => Query.ofExcept (startingTokens args)
    Session.setInventory tokens
    let beatable ← Command.ask Session.isBeatable
    let accessible ← Command.ask Session.accessible
    Command.tell (.verdict beatable accessible.length (← get).world.places.size)
    let ranking ← ranked args
    return ⟨beatable, accessible, ranking, percent, undefinedNames⟩) := by
  unfold play takeOut ranked
  by_cases hremoved : (splitList args.removePortraits).isEmpty <;> by_cases hrank : args.rank <;>
    simp [hremoved, hrank]

/-- A session is made ready for the questions: portraits are taken out, tokens chosen, and those of the arguments
held. -/
def Prepares (args : Arguments) (s t : Session) (percent : Option Nat) : Prop :=
  ∃ u held, (takeOut args).on s = (.ok percent, u) ∧ u.chosen = none ∧ startingTokens args = .ok held ∧
    t = equipped u held

/-- A report on a session `s` that is made ready as `t`. -/
structure Played (args : Arguments) (s t : Session) (r : Report) : Prop where
  prepares : Prepares args s t r.nestOfEvilPercent
  beatable : t.isBeatable.answer = .ok r.beatable
  accessible : t.accessible.answer = .ok r.accessible
  ranking : if args.rank then ∃ m, ((Session.rank .noProgression).on t).1 = .ok m ∧ r.ranking = Report.order m
    else r.ranking = []
  undefinedNames : r.undefinedNames = s.undefinedNames

variable {args : Arguments} {s t : Session}

theorem on_ranked_eq_ok {ranking : List (Token × Nat)} :
    (ranked args).on s = (.ok ranking, t) ↔ t = s ∧
      if args.rank then ∃ m, ((Session.rank .noProgression).on s).1 = .ok m ∧ ranking = Report.order m
      else ranking = [] := by
  unfold ranked
  cases args.rank with
  | false => simp [eq_comm, and_comm]
  | true =>
    simp only [if_true, Command.on_bind_eq_ok, Command.on_forIn_tell]
    constructor
    · rintro ⟨m, u, hrank, _, _, htold, h⟩
      obtain ⟨rfl⟩ := htold
      obtain ⟨rfl⟩ := h
      have hs : t = s := (congrArg Prod.snd hrank).symm.trans (Session.leaves_rank .noProgression s)
      exact ⟨hs, m, congrArg Prod.fst hrank, rfl⟩
    · rintro ⟨rfl, m, hrank, rfl⟩
      exact ⟨m, t, Prod.ext hrank (Session.leaves_rank .noProgression t), .unit, t, rfl, rfl⟩

/-- A run comes to an end with a report on the session that is made ready, and leaves it as it is. -/
theorem on_play_eq_ok {r : Report} : (play args).on s = (.ok r, t) ↔ Played args s t r := by
  rw [play_eq, Command.on_bind_of_ok (Command.on_get s), Command.on_bind_of_ok (Command.on_forIn_tell _ _ s)]
  constructor
  · intro h
    obtain ⟨percent, u, hremoved, h⟩ := Command.on_bind_eq_ok.1 h
    obtain ⟨_, _, hchoose, h⟩ := Command.on_bind_eq_ok.1 h
    obtain ⟨hchosen, rfl⟩ := Session.on_chooseTokens_eq_ok.1 hchoose
    obtain ⟨held, _, hread, h⟩ := Command.on_bind_eq_ok.1 h
    obtain ⟨hheld, rfl⟩ := Command.on_ask_eq_ok.1 hread
    rw [Session.setInventory, Command.on_bind_of_ok (Command.on_modify _ _)] at h
    obtain ⟨beatable, _, hask, h⟩ := Command.on_bind_eq_ok.1 h
    obtain ⟨hbeatable, rfl⟩ := Command.on_ask_eq_ok.1 hask
    obtain ⟨accessible, _, hlist, h⟩ := Command.on_bind_eq_ok.1 h
    obtain ⟨haccessible, rfl⟩ := Command.on_ask_eq_ok.1 hlist
    rw [Command.on_bind_of_ok (Command.on_get _), Command.on_bind_of_ok (Command.on_tell _ _)] at h
    obtain ⟨ranking, _, hrank, h⟩ := Command.on_bind_eq_ok.1 h
    obtain ⟨rfl, hranking⟩ := on_ranked_eq_ok.1 hrank
    cases h
    exact ⟨⟨u, held, hremoved, hchosen, hheld, rfl⟩, hbeatable, haccessible, hranking, rfl⟩
  · rintro ⟨⟨u, held, hremoved, hchosen, hheld, rfl⟩, hbeatable, haccessible, hranking, hundefined⟩
    have hread := fun v => (Command.on_ask_eq_ok (q := fun _ => Query.ofExcept (startingTokens args)) (s := v)).2
      ⟨hheld, rfl⟩
    have hset : (Session.setInventory held).on { u with chosen := some (u.boundItems ++ u.progressionFlags) } =
      (.ok (), equipped u held) := rfl
    rw [Command.on_bind_of_ok hremoved, Command.on_bind_of_ok (Session.on_chooseTokens_of_none hchosen),
      Command.on_bind_of_ok (hread _), Command.on_bind_of_ok hset,
      Command.on_bind_of_ok (Command.on_ask_eq_ok.2 ⟨hbeatable, rfl⟩),
      Command.on_bind_of_ok (Command.on_ask_eq_ok.2 ⟨haccessible, rfl⟩), Command.on_bind_of_ok (Command.on_get _),
      Command.on_bind_of_ok (Command.on_tell _ _), Command.on_bind_of_ok (on_ranked_eq_ok.2 ⟨rfl, hranking⟩),
      ← hundefined]
    rfl

/-- The answer of a run is what is played on the session that is read. -/
theorem answer_run (args : Arguments) (view : String → FileView) :
    (run args view).answer = sessionOf args view >>= fun s => ((play args).on s).1 := by
  unfold run sessionOf
  rw [Query.answer_bind, Query.answer_ofExcept, bind_assoc]
  congr 1
  funext settings
  rw [Query.answer_bind, Query.answer_ofExcept, bind_assoc]
  congr 1

theorem run_eq_ok {view : String → FileView} {r : Report} :
    (run args view).answer = .ok r ↔ ∃ s t, sessionOf args view = .ok s ∧ Played args s t r := by
  rw [answer_run, bind_eq_ok]
  refine exists_congr fun s => ?_
  simp only [← on_play_eq_ok]
  constructor
  · rintro ⟨hs, h⟩
    exact ⟨_, hs, Prod.ext h rfl⟩
  · rintro ⟨t, hs, h⟩
    exact ⟨hs, congrArg Prod.fst h⟩

end CommandLine

end Progression
