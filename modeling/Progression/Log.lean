import Progression.Location.Key.Basic
import Progression.Requirement.Printer

/-!
# Events and the log

A computation keeps a log of events beside its value. The log of two computations in a row is the first one's
followed by the second one's, so a log never changes a value.
-/

namespace Progression

/-- How much an event matters. -/
inductive Level
  | trace
  | debug
  | info
  | warn
  deriving DecidableEq, Repr

def Level.name : Level → String
  | trace => "TRACE"
  | debug => "DEBUG"
  | info => "INFO"
  | warn => "WARN"

inductive Event
  /-- A world was read; how many definitions, glitch definitions and locations it has. -/
  | loaded (definitions glitchDefinitions locations : Nat)
  /-- A name is about to be decided. -/
  | checking (name : Name)
  /-- The requirement of a name was evaluated. -/
  | settled (name : Name) (met : Bool)
  | overriding (name : Name) (r : Requirement)
  /-- How many locations are reachable before how many tokens are ranked. -/
  | baseline (reachable tokens : Nat)
  | chosenTokens (count : Nat)
  | nestOfEvil (percent : Nat)
  | startingPickup (id : ItemId)
  | startingRoom (room : RoomKey)
  | undefined (name : Name)
  /-- Whether the game can be won, and how many of all locations are accessible. -/
  | verdict (beatable : Bool) (accessible total : Nat)
  | ranked (token : Token) (count : Nat)
  | wroteReport (path : String)
  deriving DecidableEq

namespace Event

def level : Event → Level
  | checking _ => .trace
  | settled _ _ => .trace
  | overriding _ _ => .debug
  | baseline _ _ => .debug
  | undefined _ => .warn
  | _ => .info

def message : Event → String
  | loaded d g l => s!"Loaded {d} definitions, {g} glitch definitions, {l} locations"
  | checking name => s!"Checking requirement: {name}"
  | settled name met => s!"Requirement {name} is {met}"
  | overriding name r => s!"Overriding {name}: " ++ r.display
  | baseline n m => s!"{n} locations reachable before ranking {m} tokens"
  | chosenTokens n => s!"{n} progression tokens"
  | nestOfEvil p => s!"Nest of Evil now requires {p}% of the map"
  | startingPickup id => "Starting pickup: " ++ (Token.item id).display
  | startingRoom room => "Starting room: " ++ room.display
  | undefined name => s!"Undefined requirement: {name}"
  | verdict b n m => s!"Beatable: {b}, {n}/{m} locations accessible"
  | ranked token n => token.display ++ s!": {n}"
  | wroteReport path => s!"Wrote report to {path}"

/-- The level and the message of an event. -/
def display (e : Event) : String := e.level.name ++ " " ++ e.message

end Event

/-- A value and the events on the way to it. -/
structure Logged (α : Type) where
  value : α
  log : List Event

namespace Logged

variable {α β : Type}

protected def pure (a : α) : Logged α := ⟨a, []⟩

protected def bind (x : Logged α) (f : α → Logged β) : Logged β :=
  ⟨(f x.value).value, x.log ++ (f x.value).log⟩

instance : Monad Logged where
  pure := Logged.pure
  bind := Logged.bind

@[simp] theorem value_pure (a : α) : (pure a : Logged α).value = a := rfl

@[simp] theorem value_bind (x : Logged α) (f : α → Logged β) : (x >>= f).value = (f x.value).value := rfl

@[simp] theorem log_pure (a : α) : (pure a : Logged α).log = [] := rfl

@[simp] theorem log_bind (x : Logged α) (f : α → Logged β) :
    (x >>= f).log = x.log ++ (f x.value).log := rfl

instance : LawfulMonad Logged := LawfulMonad.mk' Logged
  (fun x => by cases x; simp [Functor.map, Logged.bind, Logged.pure])
  (fun x f => by simp [bind, pure, Logged.bind, Logged.pure])
  (fun x f g => by simp [bind, Logged.bind])

/-- Writes one event. -/
def tell (e : Event) : Logged Unit := ⟨(), [e]⟩

end Logged

end Progression
