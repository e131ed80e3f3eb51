/-!
# Errors of JSON syntax

The first place at which a text stops being JSON decides the error.
-/

namespace Progression.Json

inductive SyntaxError
  /-- A character that cannot stand where it stands. -/
  | unexpectedCharacter
  /-- The text ends inside a value. -/
  | unexpectedEnd
  /-- More containers are open than allowed, or a number has too many digits. -/
  | tooDeep
  /-- Two escaped UTF-16 units that are no surrogate pair. -/
  | badSurrogates
  deriving DecidableEq, Repr

def SyntaxError.message : SyntaxError → String
  | unexpectedCharacter => "Unexpected character"
  | unexpectedEnd => "Unexpected end of JSON"
  | tooDeep => "Exceeded depth limit"
  | badSurrogates => "Failed to parse UTF-8 bytes"

end Progression.Json
