import DiskLayers.Duration.Basic
import DiskLayers.Text.Blank

/-!
# Reading spans of time

A span is written as counts with units, such as `1h 30m` or `1.5s`.  Blanks may stand between
counts and units, and within the digits of a count.  Counts and sums stay below 2^64.

* `Duration.Unit`    a unit, by its size
* `Duration.unit?`   the unit of a word
* `Duration.parse?`  the span of a text
-/

namespace DiskLayers.Duration

/-- a unit, as nanoseconds or as whole seconds -/
inductive Unit where
  | ofNanoseconds (size : Nat)
  | ofSeconds (size : Nat)

/-- the words for units -/
def units : List (List String × Unit) :=
  [(["nanos", "nsec", "ns"], .ofNanoseconds 1),
   (["usec", "us", "µs"], .ofNanoseconds 1000),
   (["millis", "msec", "ms"], .ofNanoseconds 1000000),
   (["seconds", "second", "secs", "sec", "s"], .ofSeconds 1),
   (["minutes", "minute", "min", "mins", "m"], .ofSeconds minute),
   (["hours", "hour", "hrs", "hr", "h"], .ofSeconds hour),
   (["days", "day", "d"], .ofSeconds day),
   (["weeks", "week", "wks", "wk", "w"], .ofSeconds week),
   (["months", "month", "M"], .ofSeconds month),
   (["years", "year", "yrs", "yr", "y"], .ofSeconds year)]

def unit? (word : String) : Option Unit :=
  (units.find? fun (words, _) => words.contains word).map Prod.snd

/-- the greatest number of 64 bits -/
def maxNumber : Nat := 18446744073709551615

/-- the number, if it fits in 64 bits -/
def fit? (n : Nat) : Option Nat := if n ≤ maxNumber then some n else none

/-- a span that grew by seconds and nanoseconds -/
def add? (d : Duration) (seconds nanoseconds : Nat) : Option Duration := do
  let nanos ← fit? (d.nanoseconds + nanoseconds)
  let seconds ← fit? (d.seconds + seconds + nanos / 1000000000)
  return ⟨seconds, nanos % 1000000000⟩

/-- a fraction below one -/
structure Fraction where
  numerator : Nat
  denominator : Nat

/-- a span that grew by a whole count of a unit -/
def addWhole? (d : Duration) (count : Nat) : Unit → Option Duration
  | .ofNanoseconds size => do d.add? 0 (← fit? (count * size))
  | .ofSeconds size => do d.add? (← fit? (count * size)) 0

/-- the fraction of a number, if it is a whole number -/
def Fraction.of? (f : Fraction) (n : Nat) : Option Nat := do
  let product ← fit? (f.numerator * n)
  if product % f.denominator = 0 then return product / f.denominator else none

/-- A span that grew by a fraction of a unit.  The fraction has to be a whole number, of
nanoseconds for minutes and smaller units and of seconds for larger ones; nanoseconds have no
parts. -/
def addFraction? (d : Duration) (f : Fraction) : Unit → Option Duration
  | .ofNanoseconds size => if size = 1 then none else do d.add? 0 (← f.of? size)
  | .ofSeconds size =>
    if size ≤ minute then do d.add? 0 (← f.of? (size * 1000000000))
    else do d.add? (← f.of? size) 0

/-- a letter that may stand in a unit -/
def isUnitLetter (c : Char) : Bool :=
  ('a' ≤ c && c ≤ 'z') || ('A' ≤ c && c ≤ 'Z') || c = 'µ'

/-- Where the reader stands: the span so far, and what it is reading. -/
inductive Reading where
  /-- before a count; the flag tells that one has been read -/
  | between (begun : Bool)
  /-- in the digits of a count -/
  | whole (count : Nat)
  /-- behind the point of a count -/
  | fraction (count : Nat) (f : Fraction)
  /-- in a unit, its letters the last first -/
  | unit (count : Nat) (f : Option Fraction) (word : List Char)

/-- the span when a unit ends -/
def close? (d : Duration) (count : Nat) (f : Option Fraction) (word : List Char) :
    Option Duration := do
  let unit ← unit? (String.ofList word.reverse)
  let d ← d.addWhole? count unit
  match f with
  | none => return d
  | some f => d.addFraction? f unit

/-- the span of the characters that follow -/
def read? (d : Duration) : Reading → List Char → Option Duration
  | .between begun, [] => if begun then d else none
  | .whole _, [] => none
  | .fraction _ _, [] => none
  | .unit count f word, [] => close? d count f word
  | .between begun, c :: cs =>
    match Text.digitValue? c with
    | some n => read? d (.whole n) cs
    | none => if Text.isBlank c then read? d (.between begun) cs else none
  | .whole count, c :: cs =>
    match Text.digitValue? c with
    | some n => do read? d (.whole (← fit? (count * 10 + n))) cs
    | none =>
      if Text.isBlank c then read? d (.whole count) cs
      else if isUnitLetter c then read? d (.unit count none [c]) cs
      else if c = '.' then read? d (.fraction count ⟨0, 1⟩) cs
      else none
  | .fraction count f, c :: cs =>
    match Text.digitValue? c with
    | some n => do
      let f := ⟨← fit? (f.numerator * 10 + n), ← fit? (f.denominator * 10)⟩
      read? d (.fraction count f) cs
    | none =>
      if Text.isBlank c then read? d (.fraction count f) cs
      else if isUnitLetter c && f.denominator ≠ 1 then read? d (.unit count (some f) [c]) cs
      else none
  | .unit count f word, c :: cs =>
    match Text.digitValue? c with
    | some n => do read? (← close? d count f word) (.whole n) cs
    | none =>
      if Text.isBlank c then do read? (← close? d count f word) (.between true) cs
      else if isUnitLetter c then read? d (.unit count f (c :: word)) cs
      else none

/-- the span a text spells; a bare zero needs no unit -/
def parse? (text : String) : Option Duration :=
  if text = "0" then some zero else read? zero (.between false) text.toList

end DiskLayers.Duration
