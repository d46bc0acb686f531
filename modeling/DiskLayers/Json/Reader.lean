import DiskLayers.Json.Value
import DiskLayers.Text.Hex

/-!
# Reading JSON

* `Json.readUnits`   the code units of a quoted text, up to its closing quote
* `Json.pairUnits?`  the characters that code units spell, none if half a surrogate pair is left
* `Json.readNumeral` the numeral at the front of a list of characters
* `Json.readValue`   a value at the front of a list of characters
* `Json.parse?`      the value of a whole text

The functions that nest take a bound on the number of steps; a value has fewer steps than
characters, so `Json.parse?` gives as many as the text has characters, and one more.
-/

namespace DiskLayers.Json

/-- the blanks of JSON -/
def isSpace (c : Char) : Bool := c = ' ' || c = '\t' || c = '\n' || c = '\r'

/-- the list behind its leading blanks -/
def skipSpace (cs : List Char) : List Char := cs.dropWhile isSpace

/-- the code unit of four hexadecimal digits -/
def hexUnit? (a b c d : Char) : Option Nat := do
  let a ← Text.hexValue? a
  let b ← Text.hexValue? b
  let c ← Text.hexValue? c
  let d ← Text.hexValue? d
  return ((a * 16 + b) * 16 + c) * 16 + d

/-- the code unit of a one-letter escape -/
def escapeUnit? : Char → Option Nat
  | '"' => some 0x22
  | '\\' => some 0x5C
  | '/' => some 0x2F
  | 'b' => some 0x08
  | 'f' => some 0x0C
  | 'n' => some 0x0A
  | 'r' => some 0x0D
  | 't' => some 0x09
  | _ => none

def readUnits : List Char → Option (List Nat × List Char)
  | [] => none
  | '"' :: cs => some ([], cs)
  | '\\' :: 'u' :: a :: b :: c :: d :: cs => do
    let unit ← hexUnit? a b c d
    let (units, rest) ← readUnits cs
    return (unit :: units, rest)
  | '\\' :: e :: cs => do
    let unit ← escapeUnit? e
    let (units, rest) ← readUnits cs
    return (unit :: units, rest)
  | c :: cs =>
    if c.toNat < 0x20 ∨ c = '\\' then none
    else (readUnits cs).map fun (units, rest) => (c.toNat :: units, rest)

def isHighSurrogate (n : Nat) : Bool := 0xD800 ≤ n && n ≤ 0xDBFF
def isLowSurrogate (n : Nat) : Bool := 0xDC00 ≤ n && n ≤ 0xDFFF

/-- the characters that code units spell; a high surrogate has to be followed by a low one -/
def pairUnits? : List Nat → Option (List Char)
  | [] => some []
  | [u] => if isHighSurrogate u || isLowSurrogate u then none else some [Char.ofNat u]
  | u :: v :: us =>
    if isHighSurrogate u then
      if isLowSurrogate v then
        (pairUnits? us).map (Char.ofNat (0x10000 + (u - 0xD800) * 0x400 + (v - 0xDC00)) :: ·)
      else none
    else if isLowSurrogate u then none
    else (pairUnits? (v :: us)).map (Char.ofNat u :: ·)

/-- the text behind an opening quote -/
def readText (cs : List Char) : Option (Option String × List Char) :=
  (readUnits cs).map fun (units, rest) => ((pairUnits? units).map String.ofList, rest)

/-- the digits at the front; there has to be one -/
def readSomeDigits (cs : List Char) : Option (List Char × List Char) :=
  let ds := cs.takeWhile fun c => (Text.digitValue? c).isSome
  if ds.isEmpty then none else some (ds, cs.dropWhile fun c => (Text.digitValue? c).isSome)

/-- the whole part of a numeral: a single zero, or digits that begin with another one -/
def readWhole : List Char → Option (List Char × List Char)
  | '0' :: cs => some (['0'], cs)
  | cs => readSomeDigits cs

/-- the fraction of a numeral, with its point; it may be missing -/
def readFraction : List Char → Option (List Char × List Char)
  | '.' :: cs => (readSomeDigits cs).map fun (ds, rest) => ('.' :: ds, rest)
  | cs => some ([], cs)

/-- the exponent of a numeral, with its letter; it may be missing -/
def readScale : List Char → Option (List Char × List Char)
  | [] => some ([], [])
  | e :: cs =>
    if e = 'e' || e = 'E' then
      match cs with
      | '+' :: cs => (readSomeDigits cs).map fun (ds, rest) => (e :: '+' :: ds, rest)
      | '-' :: cs => (readSomeDigits cs).map fun (ds, rest) => (e :: '-' :: ds, rest)
      | cs => (readSomeDigits cs).map fun (ds, rest) => (e :: ds, rest)
    else some ([], e :: cs)

/-- an unsigned numeral -/
def readUnsigned (cs : List Char) : Option (List Char × List Char) := do
  let (whole, cs) ← readWhole cs
  let (fraction, cs) ← readFraction cs
  let (scale, cs) ← readScale cs
  return (whole ++ fraction ++ scale, cs)

def readNumeral : List Char → Option (List Char × List Char)
  | '-' :: cs => (readUnsigned cs).map fun (numeral, rest) => ('-' :: numeral, rest)
  | cs => readUnsigned cs

mutual
/-- the value at the front, in at most `steps` steps -/
def readValue : Nat → List Char → Option (Json × List Char)
  | 0, _ => none
  | steps + 1, cs =>
    match skipSpace cs with
    | 'n' :: 'u' :: 'l' :: 'l' :: rest => some (.null, rest)
    | 't' :: 'r' :: 'u' :: 'e' :: rest => some (.bool true, rest)
    | 'f' :: 'a' :: 'l' :: 's' :: 'e' :: rest => some (.bool false, rest)
    | '"' :: rest => (readText rest).map fun (value, rest) => (.text value, rest)
    | '[' :: rest =>
      match skipSpace rest with
      | ']' :: rest => some (.list [], rest)
      | rest => (readItems steps rest).map fun (items, rest) => (.list items, rest)
    | '\x7b' :: rest =>
      match skipSpace rest with
      | '\x7d' :: rest => some (.record [], rest)
      | rest => (readFields steps rest).map fun (fields, rest) => (.record fields, rest)
    | rest => (readNumeral rest).map fun (numeral, rest) => (.number numeral, rest)
/-- the items of a list that is not empty, up to its closing bracket -/
def readItems : Nat → List Char → Option (List Json × List Char)
  | 0, _ => none
  | steps + 1, cs => do
    let (item, rest) ← readValue steps cs
    match skipSpace rest with
    | ']' :: rest => return ([item], rest)
    | ',' :: rest =>
      let (items, rest) ← readItems steps rest
      return (item :: items, rest)
    | _ => none
/-- the fields of a record that is not empty, up to its closing brace -/
def readFields : Nat → List Char → Option (List (Option String × Json) × List Char)
  | 0, _ => none
  | steps + 1, cs =>
    match skipSpace cs with
    | '"' :: rest => do
      let (name, rest) ← readText rest
      match skipSpace rest with
      | ':' :: rest =>
        let (value, rest) ← readValue steps rest
        match skipSpace rest with
        | '\x7d' :: rest => return ([(name, value)], rest)
        | ',' :: rest =>
          let (fields, rest) ← readFields steps rest
          return ((name, value) :: fields, rest)
        | _ => none
      | _ => none
    | _ => none
end

/-- the value of a text, which may have blanks around it and nothing else -/
def parse? (text : String) : Option Json :=
  let cs := text.toList
  match readValue (cs.length + 1) cs with
  | some (value, rest) => if (skipSpace rest).isEmpty then some value else none
  | none => none

end DiskLayers.Json
