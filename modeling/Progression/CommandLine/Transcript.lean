import Progression.Failure
import Progression.Log
import Progression.Text.Plain

/-!
# Transcripts

What a run shows: first the records of its log, as plain text, then the failure, if there is one. Whatever has several
lines is indented from the second line on. A transcript keeps the lines that records begin apart from all others.
-/

namespace Progression.CommandLine

/-- A text with something at the beginning of every line but the first. -/
def indent (margin : List Char) (s : List Char) : List Char :=
  s.flatMap fun c => if c = '\n' then '\n' :: margin else [c]

def spaces (n : Nat) : List Char := List.replicate n ' '

/-- The record of an event in the log, with its newline, which an unfinished control sequence can hide. -/
def recordText (e : Event) : List Char :=
  Text.plain (indent (spaces 4) e.display.toList ++ ['\n'])

/-- A number at the right end of five places. -/
def numbered (n : Nat) : List Char := (toString n).toList.leftpad 5 ' ' ++ [':', ' ']

/-- The causes of what failed; they are numbered if there are several. -/
def causeText : List String → List Char
  | [] => []
  | [c] => "\nCaused by:\n    ".toList ++ indent (spaces 4) c.toList ++ ['\n']
  | cs =>
    "\nCaused by:\n".toList ++
      cs.zipIdx.flatMap fun c => numbered c.2 ++ indent (spaces 7) c.1.toList ++ ['\n']

/-- The widest context of a failure, and below it what caused it. -/
def failureText (f : Failure) : List Char :=
  match f.messages with
  | [] => []
  | m :: causes => "Error: ".toList ++ m.toList ++ '\n' :: causeText causes

/-- A line, and whether a record of the log begins it. -/
structure Line where
  ofLog : Bool
  text : List Char
  deriving DecidableEq, Repr

structure Transcript where
  /-- The lines that a newline has ended. -/
  finished : List Line
  /-- The line that goes on; nothing of it is there yet if its text is empty. -/
  current : Line

namespace Transcript

def empty : Transcript := ⟨[], ⟨false, []⟩⟩

instance : EmptyCollection Transcript := ⟨empty⟩

/-- The transcript after more text, whose first line is one of the log if `ofLog` says so and it begins a line. -/
def write (t : Transcript) (ofLog : Bool) (s : List Char) : Transcript :=
  match s.splitOn '\n' with
  | [] => t
  | l :: ls =>
    let first : Line := if t.current.text = [] then ⟨ofLog, l⟩ else { t.current with text := t.current.text ++ l }
    match ls.getLast? with
    | none => { t with current := first }
    | some last => ⟨t.finished ++ first :: ls.dropLast.map (⟨false, ·⟩), ⟨false, last⟩⟩

def writeEvent (t : Transcript) (e : Event) : Transcript := t.write true (recordText e)

def writeFailure (t : Transcript) (f : Failure) : Transcript := t.write false (failureText f)

/-- The lines, also the one that goes on. -/
def lines (t : Transcript) : List Line :=
  t.finished ++ if t.current.text = [] then [] else [t.current]

/-- The lines that records of the log begin. -/
def logLines (t : Transcript) : List String :=
  (t.lines.filter (·.ofLog)).map fun l => String.ofList l.text

/-- The other lines. -/
def otherLines (t : Transcript) : List String :=
  (t.lines.filter fun l => !l.ofLog).map fun l => String.ofList l.text

end Transcript

end Progression.CommandLine
