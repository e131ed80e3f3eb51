import Progression.CommandLine.Arguments
import Progression.CommandLine.Transcript
import Progression.Record
import Progression.Report
import Progression.World.Loader

/-!
# Running the command

The command reads settings and a world, plays a session on it with the tokens it is given, and reports what the
session answers. A run is a query that looks at files; whether its report can be written is told to it afterwards.
-/

namespace Progression.CommandLine

/-- The names in a list separated by commas. -/
def splitList (s : String) : List Name :=
  ((s.toList.splitOn ',').map fun p => Name.ofText (String.ofList p)).filter (· ≠ "")

/-- A text without the `0x` that it may begin with, however often. -/
def dropHexMarks : List Char → List Char
  | '0' :: 'x' :: s => dropHexMarks s
  | s => s

/-- The pickup with a number in base sixteen. -/
def readItem (n : Name) : Except Failure Token :=
  let digits := dropHexMarks n.toList
  match Hexadecimal.read UInt32.size digits with
  | .ok id => .ok (.item id.toUInt32)
  | .error e => within (.itemNumeral (String.ofList digits)) (fail (.numeral e))

/-- The tokens that are held at the start. -/
def startingTokens (args : Arguments) : Except Failure (List Token) := do
  return (← (splitList args.items).mapM readItem) ++ (splitList args.flags).map .flag

/-- The settings of a run: those of the file, or the default ones, changed as the arguments ask. -/
def settingsOf (args : Arguments) (view : String → FileView) : Except Failure Settings := do
  let settings ← match args.settings with
    | some path => Settings.ofFile path (view path)
    | none => pure .default
  let game ← match args.game with
    | none => pure settings.game
    | some text =>
      match Game.ofText? text with
      | some game => pure game
      | none => fail (.unknownGame text)
  return ⟨game, settings.glitches || args.glitches, settings.openWorld || args.openWorld⟩

/-- Plays a session and reports on it. The names that mean nothing are those before any portrait is taken out. -/
def play (args : Arguments) : Command Report := do
  let undefinedNames := (← get).undefinedNames
  for n in undefinedNames do Command.tell (.undefined n)
  let removed := splitList args.removePortraits
  let percent ← if removed.isEmpty then pure none else Session.removePortraits removed
  Session.chooseTokens
  let tokens ← Command.ask fun _ => Query.ofExcept (startingTokens args)
  Session.setInventory tokens
  let beatable ← Command.ask Session.isBeatable
  let accessible ← Command.ask Session.accessible
  Command.tell (.verdict beatable accessible.length (← get).world.places.size)
  let ranking ← if args.rank then do
      let ranking := Report.order (← Session.rank .noProgression)
      for e in ranking do Command.tell (.ranked e.1 e.2)
      pure ranking
    else pure []
  return ⟨beatable, accessible, ranking, percent, undefinedNames⟩

/-- Reads what a run needs and plays it. -/
def run (args : Arguments) (view : String → FileView) : Query Report := do
  let settings ← Query.ofExcept (settingsOf args view)
  let flags := FlagNames.ofTexts (splitList args.villagers) (splitList args.portraits)
  let world ← Query.ofExcept (World.ofFile flags args.requirements (view args.requirements))
  Query.tell world.loaded
  ExceptT.mk do
    let (report, _) ← (play args).runOn (.start world settings)
    return report

/-! ## What the user sees -/

/-- What a run leaves behind. -/
structure Outcome where
  exitCode : Nat
  transcript : Transcript

/-- Whether the log shows an event. -/
def isShown (e : Event) : Bool := e.level = .info || e.level = .warn

/-- The transcript of the events that are shown. -/
def logged (es : List Event) : Transcript := (es.filter isShown).foldl Transcript.writeEvent ∅

/-- The outcome of a run, when writing the report, if it was asked for, went as `written` says. -/
def Outcome.of (args : Arguments) (r : Logged (Except Failure Report)) (written : Except FileError Unit) :
    Outcome :=
  match r.value, args.output with
  | .error f, _ => ⟨1, (logged r.log).writeFailure f⟩
  | .ok _, none => ⟨0, logged r.log⟩
  | .ok _, some path =>
    match written with
    | .ok () => ⟨0, logged (r.log ++ [.wroteReport path])⟩
    | .error e => ⟨1, (logged r.log).writeFailure ⟨[.writing path], .file e⟩⟩

/-- The exit code of a command line that is misused. -/
def misuseCode : Nat := 2

end Progression.CommandLine
