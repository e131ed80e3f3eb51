import Progression.Document.Basic
import Progression.Json.Quoted

/-!
# Writing documents

Documents are written without spaces.
-/

namespace Progression.Document

mutual

def chars : Document → List Char
  | null => ['n', 'u', 'l', 'l']
  | bool true => ['t', 'r', 'u', 'e']
  | bool false => ['f', 'a', 'l', 's', 'e']
  | number d => d.display.toList
  | text s => Json.quoted s.toList
  | array items => '[' :: itemChars items ++ [']']
  | object members => '\x7b' :: memberChars members ++ ['\x7d']

def itemChars : List Document → List Char
  | [] => []
  | [d] => d.chars
  | d :: ds => d.chars ++ ',' :: itemChars ds

def memberChars : List (String × Document) → List Char
  | [] => []
  | [(key, d)] => Json.quoted key.toList ++ ':' :: d.chars
  | (key, d) :: ds => Json.quoted key.toList ++ ':' :: d.chars ++ ',' :: memberChars ds

end

/-- The text of a document. -/
def display (d : Document) : String := String.ofList d.chars

end Progression.Document
