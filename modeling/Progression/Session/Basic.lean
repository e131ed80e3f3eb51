import Progression.Evaluation
import Progression.Failure

/-!
# Sessions

A session plays on a world: it has its own definitions, which may be overridden, an inventory, and, once chosen, the
tokens that count as progression. A query reads a session and a command may change it. Both keep a log and may fail,
and a command that fails leaves the session as it was at that moment.
-/

namespace Progression

structure Session where
  world : World
  settings : Settings
  definitions : Definitions
  inventory : Inventory
  /-- The progression tokens, once they are chosen. -/
  chosen : Option (List Token)
  removedPortraits : List Name

/-- What a question answers, with its log. -/
abbrev Query (α : Type) := ExceptT Failure Logged α

/-- A change of a session, with its log. -/
abbrev Command (α : Type) := ExceptT Failure (StateT Session Logged) α

namespace Query

variable {α : Type}

/-- The answer without the log. -/
def answer (q : Query α) : Except Failure α := q.run.value

def ofExcept (x : Except Failure α) : Query α := ExceptT.mk (pure x)

def tell (e : Event) : Query Unit := ExceptT.lift (Logged.tell e)

/-- A query whose failure is seen from a context. -/
def within (c : Context) (q : Query α) : Query α :=
  ExceptT.mk do return Progression.within c (← q.run)

/-- A check that begins with nothing in the memo. -/
def ofCheck (c : Check α) : Query α :=
  ExceptT.mk do
    let (a, _) ← c.run.run ∅
    return a.mapError fun n => .ofCause (.undefinedName n)

end Query

namespace Command

variable {α : Type}

/-- Asks a question about the session. -/
def ask (q : Session → Query α) : Command α := do
  let s ← get
  ExceptT.mk (StateT.lift (q s).run)

def tell (e : Event) : Command Unit := ask fun _ => Query.tell e

def failWith (c : Cause) : Command α := throw (.ofCause c)

/-- Runs a command on a session: what it answers, the session after it, and the log. -/
def runOn (c : Command α) (s : Session) : Logged (Except Failure α × Session) :=
  c.run.run s

end Command

namespace Session

/-- A new session on a world. Glitch definitions count if the settings ask for them. -/
def start (w : World) (settings : Settings) : Session where
  world := w
  settings := settings
  definitions := if settings.glitches then w.definitions.merge w.glitchDefinitions else w.definitions
  inventory := ∅
  chosen := none
  removedPortraits := []

def rulebook (s : Session) : Rulebook :=
  ⟨s.definitions, s.world.glitchDefinitions, s.settings⟩

/-! ## Inventory and definitions -/

def hold (t : Token) : Command Unit := modify fun s => { s with inventory := s.inventory.add t }

def setInventory (ts : List Token) : Command Unit := modify fun s => { s with inventory := .ofList ts }

/-- Binds a name to a requirement for all that follows. -/
def override (n : Name) (r : Requirement) : Command Unit := do
  Command.tell (.overriding n r)
  modify fun s => { s with definitions := s.definitions.set n r }

end Session

end Progression
