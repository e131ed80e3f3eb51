import Progression.Json.SyntaxError
import Progression.Location.Key.Basic
import Progression.Settings
import Progression.Token

/-!
# Failures

A failure is a cause together with what was being done when it arose, from the widest context to the narrowest. Its
messages are one line for each context and a last one for the cause.
-/

namespace Progression

/-- The parts of a world document. -/
inductive Part
  | definitions
  | glitchDefinitions
  | preferences
  | rooms
  deriving DecidableEq, Repr

/-- The key under which a part stands in the document. -/
def Part.key : Part → String
  | definitions => "Defs"
  | glitchDefinitions => "Glitch defs"
  | preferences => "Preferences"
  | rooms => "Rooms"

/-- Why a file cannot be read or written. -/
inductive FileError
  | notFound
  | isDirectory
  | notDirectory
  /-- The bytes of the file are no UTF-8. -/
  | notText
  | nameTooLong
  | other (description : String)
  deriving DecidableEq, Repr

def FileError.message : FileError → String
  | notFound => "No such file or directory (os error 2)"
  | isDirectory => "Is a directory (os error 21)"
  | notDirectory => "Not a directory (os error 20)"
  | notText => "stream did not contain valid UTF-8"
  | nameTooLong => "File name too long (os error 36)"
  | other description => description

/-- What was being done. -/
inductive Context
  | requirement (text : String)
  | part (p : Part)
  | definition (name : String)
  | roomEntry (room : RoomKey) (entry : String)
  | room (key : RoomKey)
  | checkingName (name : Name)
  | checkingLocation (key : LocationKey)
  | ranking (token : Token)
  | probing (room : RoomKey)
  | roomNumerals (text : String)
  | locationNumeral (text : String)
  | entityNumeral (text : String)
  | itemNumeral (text : String)
  | worldText
  | opening (path : String)
  | reading (path : String)
  | parsing (path : String)
  | loading (path : String)
  | writing (path : String)
  deriving DecidableEq, Repr

def Context.message : Context → String
  | requirement text => s!"In requirement '{text}'"
  | part p => "Processing " ++ p.key
  | definition name => s!"Parsing definition '{name}'"
  | roomEntry k entry => "Parsing requirement for " ++ k.display ++ s!" '{entry}'"
  | room k => "Processing room " ++ k.display
  | checkingName name => "Checking " ++ name
  | checkingLocation key => "Checking location " ++ key.display
  | ranking token => "Ranking token " ++ token.display
  | probing k => "Probing room " ++ k.display
  | roomNumerals text => "Invalid hex in room key " ++ text
  | locationNumeral text => "Invalid entity index in location key " ++ text
  | entityNumeral text => "Invalid entity index: " ++ text
  | itemNumeral text => "Invalid item id " ++ text
  | worldText => "unable to parse requirements"
  | opening path => "unable to open " ++ path
  | reading path => "unable to read " ++ path
  | parsing path => "unable to parse " ++ path
  | loading path => "Loading requirements from " ++ path
  | writing path => "Unable to write " ++ path

/-- The names of the games, each in quotes, as a bracketed list. -/
def Game.listing : String :=
  "[" ++ ", ".intercalate (Game.all.map fun g => "\"" ++ g.name ++ "\"") ++ "]"

inductive Cause
  /-- A text that is no JSON. -/
  | syntaxError (e : Json.SyntaxError)
  /-- A JSON value, or text, that does not describe the wanted record. -/
  | malformedRecord
  | numeral (e : NumeralError)
  | file (e : FileError)
  /-- A word that names no member of a closed set. -/
  | unknownVariant
  | clauseWithoutTerms
  | expressionWithoutClauses
  | grouping (term : String)
  | noItemId (document : String)
  | noRequirement (document : String)
  | roomKeyShape (text : String)
  | locationKeyShape (text : String)
  | noEntityIndex (text : String)
  | unbalancedParenthesis (text : String)
  | noObject (p : Part)
  | noRoomObject (room : RoomKey)
  | noWeight (name : Name)
  | undefinedPickup (name : Name)
  | noPickup (name : Name)
  | duplicateLocation (key : LocationKey)
  | undefinedName (name : Name)
  | unknownLocation (key : LocationKey)
  | tokensAlreadyChosen
  | tokensNotChosen
  | noPortraitsInGame
  | portraitsTooLate
  | unknownPortrait (name : Name)
  | noStartingRoom
  | probeFailed
  | unknownGame (text : String)
  deriving DecidableEq, Repr

def Cause.message : Cause → String
  | syntaxError e => e.message
  | malformedRecord => "malformed record"
  | numeral e => e.message
  | file e => e.message
  | unknownVariant => "Matching variant not found"
  | clauseWithoutTerms => "Clause has no terms"
  | expressionWithoutClauses => "Expression has no clauses"
  | grouping term => s!"Grouping is not supported in requirement term '{term}'"
  | noItemId document => "Item id must be a non-negative integer: " ++ document
  | noRequirement document => "Unable to parse requirement: " ++ document
  | roomKeyShape text => "Room key should look like AA-BB-CC: " ++ text
  | locationKeyShape text => "Location key should look like AA-BB-CC_EE: " ++ text
  | noEntityIndex text => "Expected a hex entity index: " ++ text
  | unbalancedParenthesis text => "Unbalanced parenthesis in entity key: " ++ text
  | noObject .definitions => "Expected an object of definitions"
  | noObject .glitchDefinitions => "Expected an object of definitions"
  | noObject .preferences => "Expected an object of preferences"
  | noObject .rooms => "Expected an object of rooms"
  | noRoomObject room => "Expected an object for room " ++ room.display
  | noWeight name => s!"Expecting numeric weight for preference '{name}'"
  | undefinedPickup name => s!"Preference for undefined pickup '{name}'"
  | noPickup name => s!"Preference '{name}' does not name a pickup"
  | duplicateLocation key => "Duplicate location " ++ key.display
  | undefinedName name => "Invalid requirement: " ++ name
  | unknownLocation key => "Unknown location " ++ key.display
  | tokensAlreadyChosen => "Progression tokens were already initialized"
  | tokensNotChosen => "Progression tokens have not been initialized"
  | noPortraitsInGame => "Cannot set removed portraits in any game but PoR"
  | portraitsTooLate => "Portraits must be removed before progression tokens are initialized"
  | unknownPortrait name => "Invalid portrait name: " ++ name
  | noStartingRoom => "No valid starting room"
  | probeFailed => "probe failed"
  | unknownGame text => s!"Unknown game {text}; expected one of " ++ Game.listing

structure Failure where
  /-- What was being done, the widest context first. -/
  contexts : List Context
  cause : Cause
  deriving DecidableEq, Repr

namespace Failure

/-- A cause without context. -/
def ofCause (c : Cause) : Failure := ⟨[], c⟩

instance : Coe Cause Failure := ⟨ofCause⟩

/-- The failure seen from a wider context. -/
def inside (f : Failure) (c : Context) : Failure := { f with contexts := c :: f.contexts }

/-- One line for each context, the widest first, and one for the cause. -/
def messages (f : Failure) : List String :=
  f.contexts.map Context.message ++ [f.cause.message]

end Failure

/-- Fails with a cause. -/
def fail {α : Type} (c : Cause) : Except Failure α := .error c

/-- A step whose failure is seen from a context. -/
def within {α : Type} (c : Context) (x : Except Failure α) : Except Failure α :=
  x.mapError (·.inside c)

end Progression
