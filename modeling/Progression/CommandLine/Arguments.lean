import Progression.Table

/-!
# Arguments

A command line is a list of switches and of options with a value. A value stands in the next argument, which must not
begin with a hyphen unless it is one, or after an equals sign. Nothing may be given twice, unknown or left over, and
the requirements have to be given.
-/

namespace Progression.CommandLine

/-- An option with a value. -/
inductive Key
  | requirements
  | settings
  | game
  | villagers
  | portraits
  | items
  | flags
  | removePortraits
  | output
  deriving DecidableEq, Repr

namespace Key

def all : List Key :=
  [requirements, settings, game, villagers, portraits, items, flags, removePortraits, output]

def word : Key → String
  | requirements => "requirements"
  | settings => "settings"
  | game => "game"
  | villagers => "villagers"
  | portraits => "portraits"
  | items => "items"
  | flags => "flags"
  | removePortraits => "remove-portraits"
  | output => "output"

/-- Whether the value is a path, which cannot be empty. -/
def isPath : Key → Bool
  | requirements => true
  | settings => true
  | output => true
  | _ => false

end Key

/-- An option without a value. -/
inductive Switch
  | enableGlitches
  | openWorld
  | rank
  deriving DecidableEq, Repr

namespace Switch

def all : List Switch := [enableGlitches, openWorld, rank]

def word : Switch → String
  | enableGlitches => "enable-glitches"
  | openWorld => "open-world"
  | rank => "rank"

end Switch

/-- Why a command line is not run. -/
inductive Refusal
  /-- It asks how to use the command. -/
  | help
  | misuse
  deriving DecidableEq, Repr

/-- What was given so far. -/
structure Given where
  values : Table Key String
  switches : List Switch

namespace Given

def addValue (g : Given) (k : Key) (v : String) : Except Refusal Given :=
  if k ∈ g.values ∨ (k.isPath ∧ v = "") then .error .misuse
  else .ok { g with values := g.values.set k v }

def addSwitch (g : Given) (s : Switch) : Except Refusal Given :=
  if s ∈ g.switches then .error .misuse else .ok { g with switches := g.switches ++ [s] }

end Given

/-- What one argument is. -/
inductive Word
  /-- Two hyphens: the end of the options. -/
  | close
  | help
  | switch (s : Switch)
  | option (k : Key)
  | assigned (k : Key) (v : String)
  | unknown
  deriving DecidableEq, Repr

/-- The option without a value, or the one whose value follows, that has a name. -/
def Word.named (name : String) : Word :=
  match Key.all.find? (·.word = name) with
  | some k => .option k
  | none =>
    match Switch.all.find? (·.word = name) with
    | some s => .switch s
    | none => if name = "help" then .help else .unknown

def Word.ofArgument (a : String) : Word :=
  match a.toList with
  | ['-', '-'] => .close
  | '-' :: '-' :: cs =>
    let name := String.ofList (cs.takeWhile (· ≠ '='))
    match cs.dropWhile (· ≠ '=') with
    | [] => named name
    | _ :: v =>
      match named name with
      | .option k => .assigned k (String.ofList v)
      | _ => .unknown
  | '-' :: 'h' :: _ => .help
  | _ => .unknown

/-- Whether an argument can be the value of the option before it. -/
def isValue (a : String) : Bool := a = "-" || a.toList.head? ≠ some '-'

/-- Reads the arguments from left to right. -/
def read (g : Given) : List String → Except Refusal Given
  | [] => .ok g
  | [a] =>
    match Word.ofArgument a with
    | .close => .ok g
    | .help => .error .help
    | .switch s => g.addSwitch s
    | .assigned k v => g.addValue k v
    | .option _ => .error .misuse
    | .unknown => .error .misuse
  | a :: b :: rest =>
    match Word.ofArgument a with
    | .close => .error .misuse
    | .help => .error .help
    | .switch s => do read (← g.addSwitch s) (b :: rest)
    | .assigned k v => do read (← g.addValue k v) (b :: rest)
    | .option k => do if isValue b then read (← g.addValue k b) rest else throw .misuse
    | .unknown => .error .misuse

structure Arguments where
  requirements : String
  settings : Option String
  game : Option String
  villagers : String
  portraits : String
  glitches : Bool
  openWorld : Bool
  items : String
  flags : String
  removePortraits : String
  rank : Bool
  output : Option String
  deriving DecidableEq, Repr

/-- The arguments that a command line gives. -/
def Arguments.ofList (args : List String) : Except Refusal Arguments := do
  let g ← read ⟨∅, []⟩ args
  let text := fun k => (g.values.get? k).getD ""
  match g.values.get? .requirements with
  | none => throw .misuse
  | some requirements =>
    return {
      requirements
      settings := g.values.get? .settings
      game := g.values.get? .game
      villagers := text .villagers
      portraits := text .portraits
      glitches := .enableGlitches ∈ g.switches
      openWorld := .openWorld ∈ g.switches
      items := text .items
      flags := text .flags
      removePortraits := text .removePortraits
      rank := .rank ∈ g.switches
      output := g.values.get? .output }

end Progression.CommandLine
