import Progression.Inventory.Scope
import Progression.Session.Reachability

/-!
# Progression tokens and their ranking

The progression tokens are chosen once. Ranking counts, for each one that is not held, the locations that it alone
would open. To count, ranking changes the inventory in a scope, so the inventory is the same afterwards, also when the
ranking fails.
-/

namespace Progression.Session

/-- The pickups that names are bound to, each once, in the order of the definitions. -/
def boundItems (s : Session) : List Token :=
  (s.definitions.values.filterMap fun r =>
    match r with
    | .atom (.item id) => some (Token.item id)
    | _ => none).eraseDups

/-- The flags that count as progression in the game that is played. -/
def progressionFlags (s : Session) : List Token :=
  match s.settings.game with
  | .ooe => s.world.flags.villagers.toList.map .flag
  | .por => (s.world.flags.portraits.toList.filter (· ∉ s.removedPortraits)).map .flag
  | .dos => []

/-- Chooses the progression tokens, for good. -/
def chooseTokens : Command Unit := do
  let s ← get
  if s.chosen.isSome then Command.failWith .tokensAlreadyChosen
  let tokens := s.boundItems ++ s.progressionFlags
  Command.tell (.chosenTokens tokens.length)
  set { s with chosen := some tokens }

def progressionTokens (s : Session) : Query (List Token) :=
  match s.chosen with
  | some tokens => return tokens
  | none => throw (.ofCause .tokensNotChosen)

/-- The accessible locations without a tag. -/
def reachable (ignored : Tag) (s : Session) : Query (List LocationKey) := do
  return (← (s.world.places.entries.filter fun e => ignored ∉ e.2.tags).filterM s.checkEntry).map Prod.fst

/-- The scope on the inventory of a session that began with `saved`. -/
def scope (saved : Inventory) (s : Session) : Scope := ⟨saved, s.inventory⟩

/-- A change of the scope that began with `saved`, and with it of the inventory. -/
def changeScope (saved : Inventory) (f : Scope → Scope) : Command Unit :=
  modify fun s => { s with inventory := (f (s.scope saved)).current }

/-- A command that may change the inventory, but not for what follows. It gets the contents that are put back. -/
def inScope {α : Type} (body : Inventory → Command α) : Command α := do
  let saved := (Scope.enter (← get).inventory).saved
  let leave : Command Unit := modify fun s => { s with inventory := (s.scope saved).leave }
  tryCatch (do let a ← body saved; leave; return a) fun e => do leave; throw e

/-- How many locations a token would open, next to those in `baseline`. The tokens that were tried before are taken
back first. -/
def countOpened (ignored : Tag) (saved : Inventory) (baseline : List LocationKey) (t : Token) : Command Nat := do
  changeScope saved .reset
  changeScope saved fun scope => scope.update (·.add t)
  let reached ← Command.ask fun s => Query.within (.ranking t) (reachable ignored s)
  return (reached.filter (· ∉ baseline)).length

/-- For each progression token that is not held, how many locations without the tag it alone would open. -/
def rank (ignored : Tag) : Command (Table Token Nat) := do
  let tokens ← Command.ask progressionTokens
  let held := (← get).inventory
  let candidates := tokens.filter (· ∉ held)
  inScope fun saved => do
    let baseline ← Command.ask (reachable ignored)
    Command.tell (.baseline baseline.length candidates.length)
    candidates.foldlM (fun ranking t => do
      return ranking.set t (← countOpened ignored saved baseline t)) ∅

end Progression.Session
