import Progression.Failure

/-!
# Files

A look at a file finds its text, or fails: the file cannot be opened, or it opens and cannot be read to the end as
text.
-/

namespace Progression

/-- What a look at a file finds. -/
inductive FileView
  | text (s : String)
  | unopened (e : FileError)
  | unreadable (e : FileError)

namespace FileView

/-- The view of a file with certain bytes. -/
def ofBytes (bytes : ByteArray) : FileView :=
  match String.fromUTF8? bytes with
  | some s => .text s
  | none => .unreadable .notText

/-- The text at a path, where a failure says whether opening or reading failed. -/
def contents (path : String) : FileView → Except Failure String
  | text s => .ok s
  | unopened e => within (.opening path) (fail (.file e))
  | unreadable e => within (.reading path) (fail (.file e))

/-- The text at a path, where every failure is one of reading. -/
def contentsAtOnce (path : String) : FileView → Except Failure String
  | text s => .ok s
  | unopened e => within (.reading path) (fail (.file e))
  | unreadable e => within (.reading path) (fail (.file e))

end FileView

end Progression
