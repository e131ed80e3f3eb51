/-!
# Plain text

Text for a terminal may hold control characters and control sequences: an escape and what it asks of the terminal.
`plain` is what remains to be read, the text without both; line ends, tabs and form feeds remain too.
-/

namespace Progression.Text

/-- How far a control sequence has been read. -/
inductive Sequence
  /-- There is no sequence. -/
  | none
  /-- After the escape. -/
  | escape
  /-- After an escape and characters below the digits, which a last character follows. -/
  | intermediate
  /-- In a sequence that `ESC [` begins. -/
  | parameters
  /-- After `ESC P`, which begins a string for the device. -/
  | deviceEntry
  | deviceParameters
  | deviceIntermediate
  /-- In a string that `ESC ]` begins and a bell may end. -/
  | command
  /-- In any other string, which byte `9C` may end. -/
  | hidden
  deriving DecidableEq, Repr

/-- A tab, a form feed or a part of a line end. -/
def isLayout (c : Char) : Bool := c == '\t' || c == '\n' || c == '\x0c' || c == '\r'

/-- A character below the space, or the one that deletes. -/
def isControl (c : Char) : Bool := c.toNat < 0x20 || c.toNat == 0x7F

namespace Sequence

/-- Whether a character remains at this place. Strings hide layout, other sequences do not. -/
def shows : Sequence → Char → Bool
  | none, c => !isControl c || isLayout c
  | escape, c => isLayout c
  | intermediate, c => isLayout c
  | parameters, c => isLayout c
  | _, _ => false

/-- The sequence after a character from the space to the tilde. -/
def afterPrintable (c : Char) : Sequence → Sequence
  | none => none
  | escape =>
    if c < '0' then intermediate
    else if c = 'P' then deviceEntry
    else if c = '[' then parameters
    else if c = ']' then command
    else if c = 'X' ∨ c = '^' ∨ c = '_' then hidden
    else none
  | intermediate => if c < '0' then intermediate else none
  | parameters => if c < '@' then parameters else none
  | deviceEntry => if c < '0' then deviceIntermediate else if c < '@' then deviceParameters else hidden
  | deviceParameters => if c < '0' then deviceIntermediate else if c < '<' then deviceParameters else hidden
  | deviceIntermediate => if c < '0' then deviceIntermediate else hidden
  | command => command
  | hidden => hidden

/-- The sequence after a character. An escape begins a new one, and two characters cancel any. -/
def after (s : Sequence) (c : Char) : Sequence :=
  if c = '\x1b' then escape
  else if c = '\x18' ∨ c = '\x1a' then none
  else if s = command ∧ c = '\x07' then none
  else if s = hidden ∧ 0x9C ∈ String.utf8EncodeChar c then none
  else if isControl c ∨ 0x80 ≤ c.toNat then s
  else s.afterPrintable c

end Sequence

/-- What remains of a text that goes on in a sequence. Layout inside a sequence suspends it: what follows remains, and
the next control character takes the sequence up again, unless there was a character outside ASCII before. -/
def plainFrom (s : Sequence) (suspended : Bool) : List Char → List Char
  | [] => []
  | c :: cs =>
    if suspended && Sequence.none.shows c then
      c :: plainFrom (if c.toNat < 0x80 then s else .none) true cs
    else if s.shows c then c :: plainFrom (s.after c) true cs
    else plainFrom (s.after c) false cs

/-- A text without control characters and control sequences. -/
def plain (cs : List Char) : List Char := plainFrom .none false cs

end Progression.Text
