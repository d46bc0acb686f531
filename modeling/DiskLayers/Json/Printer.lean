import DiskLayers.Json.Value
import DiskLayers.Text.Hex

/-!
# Writing JSON

* `Json.escape`   the characters of a text between its quotes
* `Json.pretty`   a value over several lines, two spaces for each level
* `Json.compact`  a value without any blank

Quotes, backslashes and control characters are escaped, the latter by one letter where there is
one; every other character stands for itself.
-/

namespace DiskLayers.Json

/-- a character inside quotes -/
def escapeChar (c : Char) : List Char :=
  if c = '"' then ['\\', '"']
  else if c = '\\' then ['\\', '\\']
  else if c = '\n' then ['\\', 'n']
  else if c = '\r' then ['\\', 'r']
  else if c = '\t' then ['\\', 't']
  else if c.toNat = 0x08 then ['\\', 'b']
  else if c.toNat = 0x0C then ['\\', 'f']
  else if c.toNat < 0x20 then
    ['\\', 'u', '0', '0', Text.hexDigit (c.toNat / 16), Text.hexDigit c.toNat]
  else [c]

def escape (cs : List Char) : List Char := cs.flatMap escapeChar

/-- a text in quotes; a broken one is written as empty -/
def quote (value : Option String) : List Char :=
  '"' :: escape ((value.getD "").toList) ++ ['"']

/-- a new line and the indent of a level -/
def newLine (level : Nat) : List Char := '\n' :: List.replicate (2 * level) ' '

mutual
/-- a value over several lines, its inner lines indented below `level` -/
def prettyAt (level : Nat) : Json → List Char
  | .null => ['n', 'u', 'l', 'l']
  | .bool true => ['t', 'r', 'u', 'e']
  | .bool false => ['f', 'a', 'l', 's', 'e']
  | .number numeral => numeral
  | .text value => quote value
  | .list [] => ['[', ']']
  | .list (item :: items) =>
    '[' :: newLine (level + 1) ++ prettyAt (level + 1) item ++ prettyItems (level + 1) items ++
      newLine level ++ [']']
  | .record [] => ['\x7b', '\x7d']
  | .record ((name, value) :: fields) =>
    '\x7b' :: newLine (level + 1) ++ quote name ++ [':', ' '] ++ prettyAt (level + 1) value ++
      prettyFields (level + 1) fields ++ newLine level ++ ['\x7d']
/-- the items behind the first, each with the comma before it -/
def prettyItems (level : Nat) : List Json → List Char
  | [] => []
  | item :: items => ',' :: newLine level ++ prettyAt level item ++ prettyItems level items
/-- the fields behind the first, each with the comma before it -/
def prettyFields (level : Nat) : List (Option String × Json) → List Char
  | [] => []
  | (name, value) :: fields =>
    ',' :: newLine level ++ quote name ++ [':', ' '] ++ prettyAt level value ++
      prettyFields level fields
end

mutual
/-- a value without blanks -/
def compactChars : Json → List Char
  | .null => ['n', 'u', 'l', 'l']
  | .bool true => ['t', 'r', 'u', 'e']
  | .bool false => ['f', 'a', 'l', 's', 'e']
  | .number numeral => numeral
  | .text value => quote value
  | .list [] => ['[', ']']
  | .list (item :: items) => '[' :: compactChars item ++ compactItems items ++ [']']
  | .record [] => ['\x7b', '\x7d']
  | .record ((name, value) :: fields) =>
    '\x7b' :: quote name ++ ':' :: compactChars value ++ compactFields fields ++ ['\x7d']
/-- the items behind the first, each with the comma before it -/
def compactItems : List Json → List Char
  | [] => []
  | item :: items => ',' :: compactChars item ++ compactItems items
/-- the fields behind the first, each with the comma before it -/
def compactFields : List (Option String × Json) → List Char
  | [] => []
  | (name, value) :: fields =>
    ',' :: quote name ++ ':' :: compactChars value ++ compactFields fields
end

/-- a value over several lines, without a final line end -/
def pretty (value : Json) : String := String.ofList (prettyAt 0 value)

/-- a value without blanks -/
def compact (value : Json) : String := String.ofList (compactChars value)

end DiskLayers.Json
