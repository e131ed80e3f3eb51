import Progression.Proofs.Session.Commands
import Progression.Proofs.Session.Queries
import Progression.Session.Overrides

/-!
# Operations on a session

All that can be done with a session, as one type: questions, rankings, and the commands that change the inventory, the
definitions, the portraits or the progression tokens. A session goes through a run of operations, whether they succeed
or fail (`Session.afterAll`). What fails changes nothing, and neither does a question or a ranking, although a ranking
tries one inventory after the other (`unchanged_unless_done`).
-/

namespace Progression

/-- A question about a session. -/
inductive Inquiry
  | requirement (r : Requirement)
  | name (n : Name)
  | names (ns : List Name)
  | beatable
  | isAccessible (key : LocationKey)
  | accessible
  | accessibleAmong (keys : List LocationKey)
  | undefinedNames
  | progressionTokens

namespace Inquiry

def Answer : Inquiry → Type
  | requirement _ => Bool
  | name _ => Bool
  | names _ => List Bool
  | beatable => Bool
  | isAccessible _ => Bool
  | accessible => List LocationKey
  | accessibleAmong _ => List LocationKey
  | undefinedNames => List Name
  | progressionTokens => List Token

def query : (q : Inquiry) → Session → Query q.Answer
  | requirement r => fun s => s.checkRequirement r
  | name n => fun s => s.checkName n
  | names ns => fun s => s.checkNames ns
  | beatable => fun s => s.isBeatable
  | isAccessible key => fun s => s.isAccessible key
  | accessible => fun s => s.accessible
  | accessibleAmong keys => fun s => s.accessibleAmong keys
  | undefinedNames => fun s => pure s.undefinedNames
  | progressionTokens => fun s => s.progressionTokens

end Inquiry

/-- What can be done with a session. -/
inductive Operation
  | hold (t : Token)
  | setInventory (ts : List Token)
  | override (n : Name) (r : Requirement)
  | setRedWallSouls (first second third fourth : ItemId)
  | removePortraitPrerequisites
  | removeParanoiaPrerequisite
  | removePortraits (names : List Name)
  | chooseTokens
  | rank (ignored : Tag)
  | inquire (q : Inquiry)

namespace Operation

def Answer : Operation → Type
  | hold _ => Unit
  | setInventory _ => Unit
  | override _ _ => Unit
  | setRedWallSouls _ _ _ _ => Unit
  | removePortraitPrerequisites => Unit
  | removeParanoiaPrerequisite => Unit
  | removePortraits _ => Option Nat
  | chooseTokens => Unit
  | rank _ => Table Token Nat
  | inquire q => q.Answer

def command : (op : Operation) → Command op.Answer
  | hold t => Session.hold t
  | setInventory ts => Session.setInventory ts
  | override n r => Session.override n r
  | setRedWallSouls first second third fourth => Session.setRedWallSouls first second third fourth
  | removePortraitPrerequisites => Session.removePortraitPrerequisites
  | removeParanoiaPrerequisite => Session.removeParanoiaPrerequisite
  | removePortraits names => Session.removePortraits names
  | chooseTokens => Session.chooseTokens
  | rank ignored => Session.rank ignored
  | inquire q => Command.ask q.query

end Operation

namespace Session

def answerTo (s : Session) (op : Operation) : Except Failure op.Answer := (op.command.on s).1

/-- The session after an operation, be it done or not. -/
def after (s : Session) (op : Operation) : Session := (op.command.on s).2

/-- The session after some operations in a row, however they end. -/
def afterAll (s : Session) (ops : List Operation) : Session := ops.foldl after s

theorem afterAll_append (s : Session) (ops ops' : List Operation) :
    s.afterAll (ops ++ ops') = (s.afterAll ops).afterAll ops' :=
  List.foldl_append

end Session

/-! ## Commands that leave a session as it is -/

namespace Command

variable {α β : Type}

/-- Whatever the command answers, the session stays as it was. -/
def Leaves (c : Command α) : Prop := ∀ s, (c.on s).2 = s

/-- The command changes the inventory at most. -/
def LeavesRest (c : Command α) : Prop := ∀ s, { (c.on s).2 with inventory := s.inventory } = s

theorem leaves_ask (q : Session → Query α) : (ask q).Leaves := fun _ => rfl

theorem leaves_get : (get : Command Session).Leaves := fun _ => rfl

theorem Leaves.bind {c : Command α} {f : α → Command β} (h : c.Leaves) (hf : ∀ a, (f a).Leaves) :
    (c >>= f).Leaves := by
  intro s
  have hs := h s
  rw [on_bind]
  rcases hc : c.on s with ⟨e | a, s'⟩ <;> rw [hc] at hs <;> obtain rfl : s' = s := hs
  · rfl
  · exact hf a s'

theorem Leaves.rest {c : Command α} (h : c.Leaves) : c.LeavesRest := by
  intro s
  rw [h s]

theorem leavesRest_pure (a : α) : (pure a : Command α).LeavesRest := fun _ => rfl

theorem leavesRest_modify (f : Session → Inventory) :
    (modify fun s => { s with inventory := f s } : Command Unit).LeavesRest := fun _ => rfl

theorem LeavesRest.bind {c : Command α} {f : α → Command β} (h : c.LeavesRest) (hf : ∀ a, (f a).LeavesRest) :
    (c >>= f).LeavesRest := by
  intro s
  have hs := h s
  rw [on_bind]
  rcases hc : c.on s with ⟨e | a, s'⟩ <;> rw [hc] at hs
  · exact hs
  · have hs' : { ((f a).on s').2 with inventory := s'.inventory } = s' := hf a s'
    calc { ((f a).on s').2 with inventory := s.inventory }
        = { { ((f a).on s').2 with inventory := s'.inventory } with inventory := s.inventory } := rfl
      _ = { s' with inventory := s.inventory } := by rw [hs']
      _ = s := hs

theorem leavesRest_foldlM {f : β → α → Command β} (hf : ∀ b a, (f b a).LeavesRest) (l : List α) (b : β) :
    (l.foldlM f b).LeavesRest := by
  induction l generalizing b with
  | nil => exact leavesRest_pure b
  | cons a l ih =>
    rw [List.foldlM_cons]
    exact (hf b a).bind ih

/-- A scope puts the inventory back, so nothing is left of a command that changes no more than the inventory. -/
theorem leaves_inScope {body : Inventory → Command α} (h : ∀ saved, (body saved).LeavesRest) :
    (Session.inScope body).Leaves := by
  intro s
  rw [on_inScope]
  exact h s.inventory s

end Command

namespace Session

theorem leavesRest_changeScope (saved : Inventory) (f : Scope → Scope) : (changeScope saved f).LeavesRest :=
  Command.leavesRest_modify fun s => (f (s.scope saved)).current

theorem leavesRest_countOpened (ignored : Tag) (saved : Inventory) (baseline : List LocationKey) (t : Token) :
    (countOpened ignored saved baseline t).LeavesRest := by
  unfold countOpened
  refine (leavesRest_changeScope saved _).bind fun _ => (leavesRest_changeScope saved _).bind fun _ => ?_
  exact (Command.leaves_ask _).rest.bind fun _ => Command.leavesRest_pure _

/-- A ranking changes the inventory for every token it tries, and leaves the session as it was. -/
theorem leaves_rank (ignored : Tag) : (rank ignored).Leaves := by
  unfold rank
  refine (Command.leaves_ask _).bind fun tokens => Command.leaves_get.bind fun s => ?_
  refine Command.leaves_inScope fun saved => ?_
  refine (Command.leaves_ask _).rest.bind fun baseline => (Command.leaves_ask _).rest.bind fun _ => ?_
  exact Command.leavesRest_foldlM (fun ranking t => (leavesRest_countOpened ignored saved baseline t).bind fun _ =>
    Command.leavesRest_pure _) _ _

/-! ## Commands that change a session -/

theorem on_chooseTokens_of_some {s : Session} {tokens : List Token} (h : s.chosen = some tokens) :
    chooseTokens.on s = (.error (.ofCause .tokensAlreadyChosen), s) := by
  unfold chooseTokens
  rw [Command.on_bind, Command.on_get]
  simp only [h, Option.isSome_some, if_true]
  rfl

theorem on_chooseTokens_of_none {s : Session} (h : s.chosen = none) :
    chooseTokens.on s = (.ok (), { s with chosen := some (s.boundItems ++ s.progressionFlags) }) := by
  unfold chooseTokens
  rw [Command.on_bind, Command.on_get]
  simp only [h, Option.isSome_none, Bool.false_eq_true, if_false]
  rfl

theorem on_chooseTokens_eq_ok {u v : Session} {a : Unit} :
    chooseTokens.on u = (.ok a, v) ↔
      u.chosen = none ∧ v = { u with chosen := some (u.boundItems ++ u.progressionFlags) } := by
  cases hchosen : u.chosen with
  | some tokens =>
    rw [on_chooseTokens_of_some hchosen]
    simp
  | none =>
    rw [on_chooseTokens_of_none hchosen]
    simp [eq_comm]

/-- What taking portraits out answers, and the session after it: one case for each way that goes. -/
inductive RemovalStep (names : List Name) (s : Session) : Except Failure (Option Nat) × Session → Prop
  | otherGame (hgame : s.settings.game ≠ .por) : RemovalStep names s (.error (.ofCause .noPortraitsInGame), s)
  | late (hgame : s.settings.game = .por) {tokens : List Token} (hchosen : s.chosen = some tokens) :
    RemovalStep names s (.error (.ofCause .portraitsTooLate), s)
  | unknown (hgame : s.settings.game = .por) (hchosen : s.chosen = none) {e : Failure}
    (hremoved : removablePortraits names = .error e) : RemovalStep names s (.error e, s)
  /-- All portraits are back in the game. -/
  | none (hgame : s.settings.game = .por) (hchosen : s.chosen = none) (hnames : names = []) :
    RemovalStep names s (.ok .none, { s with
      removedPortraits := []
      definitions := s.definitions.set "four_seal_bosses_killed" (.allOf Portrait.sealBosses) })
  | some (hgame : s.settings.game = .por) (hchosen : s.chosen = none) (hnames : names ≠ []) {removed : List Name}
    (hremoved : removablePortraits names = .ok removed) {left : List Portrait}
    (hleft : left = Portrait.all.filter fun p => p.name ∉ removed) :
    RemovalStep names s (.ok (.some (nestOfEvilPercent left)), { s with
      removedPortraits := removed
      definitions := (s.definitions.set "four_seal_bosses_killed" (.allOf (left.map Portrait.boss))).set
        "can_complete_nest_of_evil_quest" (.allOf (left.map Portrait.area)) })

theorem removePortraits_step (names : List Name) (s : Session) :
    RemovalStep names s ((removePortraits names).on s) := by
  unfold removePortraits
  rw [Command.on_bind, Command.on_get]
  by_cases hgame : s.settings.game = .por
  · simp only [hgame, ne_eq, not_true_eq_false, if_false]
    cases hchosen : s.chosen with
    | some tokens =>
      simp only [Option.isSome_some, if_true]
      exact .late hgame hchosen
    | none =>
      simp only [Option.isSome_none, Bool.false_eq_true, if_false]
      rw [Command.on_bind, Command.on_ask, Query.answer_ofExcept]
      cases hremoved : removablePortraits names with
      | error e => exact .unknown hgame hchosen hremoved
      | ok removed =>
        cases names with
        | nil =>
          obtain rfl : [] = removed := Except.ok.inj hremoved
          exact .none hgame hchosen rfl
        | cons n ns => exact .some hgame hchosen (List.cons_ne_nil n ns) hremoved rfl
  · simp only [hgame, ne_eq, not_false_eq_true, if_true]
    exact .otherGame hgame

variable {s : Session}

theorem after_removePortraits_of_error {names : List Name} {e : Failure}
    (h : s.answerTo (.removePortraits names) = .error e) : s.after (.removePortraits names) = s := by
  have hstep := removePortraits_step names s
  show ((removePortraits names).on s).2 = s
  replace h : ((removePortraits names).on s).1 = .error e := h
  generalize (removePortraits names).on s = p at hstep h ⊢
  cases hstep with
  | otherGame hgame => rfl
  | late hgame hchosen => rfl
  | unknown hgame hchosen hremoved => rfl
  | none hgame hchosen hnames => cases h
  | some hgame hchosen hnames hremoved hleft => cases h

theorem after_chooseTokens_of_error {e : Failure} (h : s.answerTo .chooseTokens = .error e) :
    s.after .chooseTokens = s := by
  show (chooseTokens.on s).2 = s
  replace h : (chooseTokens.on s).1 = .error e := h
  cases hchosen : s.chosen with
  | some tokens => rw [on_chooseTokens_of_some hchosen]
  | none =>
    rw [on_chooseTokens_of_none hchosen] at h
    cases h

end Session

/-- What fails changes nothing, and neither does a ranking, whether or not it fails, nor a question: the definitions,
the inventory, the tokens and the portraits stay as they were. -/
theorem unchanged_unless_done (s : Session) :
    (∀ op e, s.answerTo op = .error e → s.after op = s) ∧ (∀ ignored, s.after (.rank ignored) = s) ∧
      ∀ q, s.after (.inquire q) = s := by
  refine ⟨fun op e h => ?_, fun ignored => Session.leaves_rank ignored s, fun q => Command.leaves_ask q.query s⟩
  cases op with
  | removePortraits names => exact Session.after_removePortraits_of_error h
  | chooseTokens => exact Session.after_chooseTokens_of_error h
  | rank ignored => exact Session.leaves_rank ignored s
  | inquire q => exact Command.leaves_ask q.query s
  -- the other operations never fail
  | hold t => cases h
  | setInventory ts => cases h
  | override n r => cases h
  | setRedWallSouls first second third fourth => cases h
  | removePortraitPrerequisites => cases h
  | removeParanoiaPrerequisite => cases h

/-- A new session of the game with portraits, on a world without anything. -/
def portraitSession : Session := .start ⟨∅, ∅, ∅, ∅, ∅⟩ ⟨.por, false, false⟩

/-- A portrait that can be taken out stays in the game if another one is unknown. -/
theorem unchanged_unless_done_portraitSession :
    portraitSession.answerTo (.removePortraits ["portrait_city_of_haze", "portrait_of_nobody"]) =
        .error (.ofCause (.unknownPortrait "portrait_of_nobody")) ∧
      portraitSession.after (.removePortraits ["portrait_city_of_haze", "portrait_of_nobody"]) = portraitSession := by
  have hfails : portraitSession.answerTo (.removePortraits ["portrait_city_of_haze", "portrait_of_nobody"]) =
      .error (.ofCause (.unknownPortrait "portrait_of_nobody")) := rfl
  exact ⟨hfails, (unchanged_unless_done portraitSession).1 _ _ hfails⟩

end Progression
