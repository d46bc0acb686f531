import DiskLayers.Double
import DiskLayers.Text.Decimal

/-!
# JSON values

A value keeps what a JSON text says, not only what it means: numerals as they are written, fields
in their order with repetitions, and texts whose escapes spell half a surrogate pair, which no
string can hold, as `text none`.

* `Json`           a value
* `Json.ofNat`, `Json.ofString`, `Json.ofOption`
                   values of numbers, strings and optional values
* `Json.depth`     how deep lists and records are nested
* `Json.magnitude` what a numeral is read as, before it becomes a double
* `Json.isSound`   no broken text inside and no numeral beyond the range of a double
* `Json.toNat?`    the number of an unsigned numeral
* `Json.field?`    the value of a field that stands in a record exactly once
-/

namespace DiskLayers

/-- A JSON value as it is written. -/
inductive Json where
  | null
  | bool (b : Bool)
  /-- a number, as its numeral -/
  | number (numeral : List Char)
  /-- a text, none if its escapes spell half a surrogate pair -/
  | text (value : Option String)
  | list (items : List Json)
  /-- fields with their names, in order -/
  | record (fields : List (Option String × Json))
  deriving Inhabited

namespace Json

def ofNat (n : Nat) : Json := .number (Text.digits n)
def ofString (s : String) : Json := .text (some s)
def ofOption (toJson : α → Json) : Option α → Json
  | none => .null
  | some a => toJson a
def ofList (toJson : α → Json) (as : List α) : Json := .list (as.map toJson)

/-- a record of named fields -/
def ofFields (fields : List (String × Json)) : Json :=
  .record (fields.map fun (name, value) => (some name, value))

mutual
/-- the depth of nesting, 0 for a value that is neither list nor record -/
def depth : Json → Nat
  | .list items => depthItems items + 1
  | .record fields => depthFields fields + 1
  | _ => 0
/-- the greatest depth among the items -/
def depthItems : List Json → Nat
  | [] => 0
  | v :: vs => max v.depth (depthItems vs)
/-- the greatest depth among the fields -/
def depthFields : List (Option String × Json) → Nat
  | [] => 0
  | (_, v) :: fs => max v.depth (depthFields fs)
end

/-- What a numeral is read as: a whole number and the power of ten it is multiplied by. -/
structure Magnitude where
  significand : Nat
  exponent : Int
  deriving DecidableEq, Repr

/-- the greatest significand; it fits in 64 bits -/
def maxSignificand : Nat := 18446744073709551615

/-- a significand with digits behind it as long as it is not too great, and the digits left over -/
def takeDigits (significand : Nat) : List Char → Nat × List Char
  | [] => (significand, [])
  | c :: cs =>
    let longer := significand * 10 + (Text.digitValue? c).getD 0
    if longer ≤ maxSignificand then takeDigits longer cs else (significand, c :: cs)

/-- reads the exponent part behind the digits of a numeral -/
def readExponent : List Char → Int
  | [] => 0
  | _ :: '-' :: cs => -((Text.readDigits? cs).getD 0 : Nat)
  | _ :: '+' :: cs => ((Text.readDigits? cs).getD 0 : Nat)
  | _ :: cs => ((Text.readDigits? cs).getD 0 : Nat)

/-- What a numeral is read as, its sign dropped.  Digits that no longer fit in the significand are
dropped too; those before the point are counted. -/
def magnitude (numeral : List Char) : Magnitude :=
  let unsigned := if numeral.head? = some '-' then numeral.tail else numeral
  let isExponent := fun c => c = 'e' || c = 'E'
  let mantissa := unsigned.takeWhile (!isExponent ·)
  let whole := mantissa.takeWhile (· ≠ '.')
  let fraction := (mantissa.dropWhile (· ≠ '.')).drop 1
  let (front, uncounted) := takeDigits 0 whole
  let (significand, dropped) := takeDigits front fraction
  let places : Int := fraction.length - dropped.length
  ⟨significand,
    readExponent (unsigned.dropWhile (!isExponent ·)) + uncounted.length - places⟩

/-- the greatest power of ten that is next to a finite double -/
def maxPower : Int := 308

/-- Whether the double next to the significand, multiplied by the one next to the power of ten,
is next to a finite double.  Nothing is too small. -/
def Magnitude.isFinite (m : Magnitude) : Bool :=
  m.significand = 0 || m.exponent < 0 ||
    (m.exponent ≤ maxPower &&
      nearestDouble m.significand * nearestDouble (Nat.pow 10 m.exponent.toNat) < infinityBound)

mutual
/-- no broken text inside, and every numeral spells a finite number -/
def isSound : Json → Bool
  | .null | .bool _ => true
  | .number numeral => (magnitude numeral).isFinite
  | .text value => value.isSome
  | .list items => isSoundItems items
  | .record fields => isSoundFields fields
def isSoundItems : List Json → Bool
  | [] => true
  | v :: vs => v.isSound && isSoundItems vs
def isSoundFields : List (Option String × Json) → Bool
  | [] => true
  | (name, v) :: fs => name.isSome && v.isSound && isSoundFields fs
end

/-- the number of a numeral without sign, point and exponent, if it is at most `limit` -/
def toNat? (limit : Nat) : Json → Option Nat
  | .number numeral => (Text.readDigits? numeral).filter (· ≤ limit)
  | _ => none

/-- the string of a text -/
def toString? : Json → Option String
  | .text value => value
  | _ => none

def field? (name : String) (fields : List (Option String × Json)) : Option Json :=
  match fields.filter (·.1 = some name) with
  | [(_, value)] => some value
  | _ => none

theorem toNat?_ofNat {n limit : Nat} (h : n ≤ limit) : (ofNat n).toNat? limit = some n := by
  simp [toNat?, ofNat, Text.readDigits?_digits, h]

theorem toString?_ofString (s : String) : (ofString s).toString? = some s := rfl

end Json

end DiskLayers
