import Progression.File

/-!
# Trees of files

A tree of text files, in which a directory exists if there is a file under it or if it leads to the home directory. A
path is walked name by name from the root or from home; a dot stays, two dots go up, and every name on the way has to
be that of a directory. The walk stops at the first name that is not.
-/

namespace Progression

/-- Files by the names on the way to them from the root. -/
structure FileTree where
  /-- The directory in which paths begin that do not begin at the root. -/
  home : List String
  files : List (List String × String)

namespace FileTree

/-- The greatest size of a name in bytes. -/
def maxNameSize : Nat := 255

/-- The greatest size of a path in bytes. -/
def maxPathSize : Nat := 4095

/-- The names in a path, dots among them. -/
def names (path : String) : List String :=
  ((path.toList.splitOn '/').map String.ofList).filter (· ≠ "")

/-- Whether a path begins at the root. -/
def isAbsolute (path : String) : Bool := path.toList.head? = some '/'

/-- Whether a path ends in a slash, and so has to be that of a directory. -/
def wantsDirectory (path : String) : Bool := path.toList.getLast? = some '/'

/-- Where a path begins. -/
def start (t : FileTree) (path : String) : List String := if isAbsolute path then [] else t.home

/-- The tree of some texts by their paths. -/
def ofTexts (home : List String) (files : List (String × String)) : FileTree :=
  ⟨home, files.map fun f => ((if isAbsolute f.1 then [] else home) ++ (names f.1).filter (· ≠ "."), f.2)⟩

def text? (t : FileTree) (ps : List String) : Option String := t.files.lookup ps

def isDirectory (t : FileTree) (ps : List String) : Bool :=
  ps.isPrefixOf t.home || t.files.any fun f => ps.isPrefixOf f.1 && f.1 ≠ ps

/-- The directory that a name means in a directory. -/
def enter (t : FileTree) (dir : List String) (name : String) : Except FileError (List String) :=
  if name = "." then .ok dir
  else if name = ".." then .ok dir.dropLast
  else if maxNameSize < name.utf8ByteSize then .error .nameTooLong
  else if t.isDirectory (dir ++ [name]) then .ok (dir ++ [name])
  else if (t.text? (dir ++ [name])).isSome then .error .notDirectory
  else .error .notFound

/-- The directory that a path leads to, and the name in it that the path ends with; there is none if the path ends with
dots or is the root. -/
def approach (t : FileTree) (path : String) : Except FileError (List String × Option String) :=
  if path = "" then .error .notFound
  else if maxPathSize < path.utf8ByteSize then .error .nameTooLong
  else
    let ns := names path
    match ns.getLast? with
    | none => .ok (t.start path, none)
    | some last =>
      if last = "." ∨ last = ".." then do return (← ns.foldlM t.enter (t.start path), none)
      else do return (← ns.dropLast.foldlM t.enter (t.start path), some last)

/-- What a look at a path finds. -/
def view (t : FileTree) (path : String) : FileView :=
  match t.approach path with
  | .error e => .unopened e
  | .ok (_, none) => .unreadable .isDirectory
  | .ok (dir, some name) =>
    if maxNameSize < name.utf8ByteSize then .unopened .nameTooLong
    else if t.isDirectory (dir ++ [name]) then .unreadable .isDirectory
    else
      match t.text? (dir ++ [name]) with
      | none => .unopened .notFound
      | some s => if wantsDirectory path then .unopened .notDirectory else .text s

/-- The tree after a file was written, in place of one that was there. -/
def write (t : FileTree) (path : String) (s : String) : Except FileError FileTree := do
  match ← t.approach path with
  | (_, none) => throw .isDirectory
  | (dir, some name) =>
    if wantsDirectory path then throw .isDirectory
    else if maxNameSize < name.utf8ByteSize then throw .nameTooLong
    else if t.isDirectory (dir ++ [name]) then throw .isDirectory
    else return { t with files := (dir ++ [name], s) :: t.files.filter (·.1 ≠ dir ++ [name]) }

end FileTree

end Progression
