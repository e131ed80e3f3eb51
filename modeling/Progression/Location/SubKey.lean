import Progression.Failure
import Progression.Location.Tag
import Progression.Text.Blank

/-!
# Keys of entities in a room

Inside a room an entity is written as an index in base sixteen and groups in parentheses, as in
`03 (Magical Ticket) (Hidden)`. A group whose text is that of a tag sets the tag; other groups are names for the
reader. A group ends at the first closing parenthesis, and text outside groups does not matter.
-/

namespace Progression

/-- The texts of the groups, or nothing if the last one is not closed. -/
def groups? (s : List Char) : Option (List (List Char)) :=
  match _h : Text.cutAt '(' s with
  | none => some []
  | some (_, inner) =>
    match _h' : Text.cutAt ')' inner with
    | none => none
    | some (group, rest) => (groups? rest).map (group :: ·)
termination_by s.length
decreasing_by
  have h1 := congrArg List.length (Text.append_of_cutAt _h).1
  have h2 := congrArg List.length (Text.append_of_cutAt _h').1
  simp only [List.length_append, List.length_cons] at h1 h2
  omega

/-- The tags that groups name, each once, in the order in which they first come. -/
def Tag.ofGroups (groups : List (List Char)) : List Tag :=
  (groups.filterMap fun g => Tag.ofText? (String.ofList g)).eraseDups

structure SubKey where
  entity : UInt16
  tags : List Tag
  deriving DecidableEq, Repr

def SubKey.ofText (s : String) : Except Failure SubKey :=
  let key := Text.trim s.toList
  let quoted := String.ofList key
  let index := key.takeWhile Hexadecimal.isDigit
  if index = [] then fail (.noEntityIndex quoted)
  else
    match Hexadecimal.read UInt16.size index with
    | .error e => within (.entityNumeral quoted) (fail (.numeral e))
    | .ok n =>
      match groups? (key.dropWhile Hexadecimal.isDigit) with
      | none => fail (.unbalancedParenthesis quoted)
      | some groups => .ok ⟨n.toUInt16, Tag.ofGroups groups⟩

end Progression
