import DiskLayers.Text.Decimal

/-!
# Spans of time

* `Duration`            whole seconds and nanoseconds below a second
* `Duration.ofParts`, `Duration.ofMilliseconds`
                        the span of two counts, and of one
* `Duration.exactText`  the span in its largest fitting unit, with every digit: `2.005s`
* `Duration.briefText`  milliseconds below a second, else units from years to seconds: `1m 5s`
-/

namespace DiskLayers

/-- A span of time. -/
structure Duration where
  seconds : Nat
  nanoseconds : Nat := 0
  deriving DecidableEq, Repr, Inhabited

namespace Duration

def zero : Duration := ⟨0, 0⟩

/-- seconds and nanoseconds, of which there may be more than a second -/
def ofParts (seconds nanoseconds : Nat) : Duration :=
  ⟨seconds + nanoseconds / 1000000000, nanoseconds % 1000000000⟩

/-- a count of milliseconds -/
def ofMilliseconds (n : Nat) : Duration := ⟨n / 1000, n % 1000 * 1000000⟩

/-- the whole span in nanoseconds -/
def toNanoseconds (d : Duration) : Nat := d.seconds * 1000000000 + d.nanoseconds

/-- the whole span in milliseconds, rounded down -/
def toMilliseconds (d : Duration) : Nat := d.toNanoseconds / 1000000

/-- `part` of `10 ^ width` as a fraction with its point, without zeros at its end -/
def fractionText (part width : Nat) : String :=
  if part = 0 then ""
  else
    let ds := Text.digits part
    let padded := List.replicate (width - ds.length) '0' ++ ds
    "." ++ String.ofList (padded.reverse.dropWhile (· = '0')).reverse

/-- the span in seconds, or in the largest unit of which there is at least one -/
def exactText (d : Duration) : String :=
  let n := d.nanoseconds
  if d.seconds > 0 then Text.showNat d.seconds ++ fractionText n 9 ++ "s"
  else if n ≥ 1000000 then Text.showNat (n / 1000000) ++ fractionText (n % 1000000) 6 ++ "ms"
  else if n ≥ 1000 then Text.showNat (n / 1000) ++ fractionText (n % 1000) 3 ++ "µs"
  else Text.showNat n ++ "ns"

/-- seconds of a year of 365.25 days -/
def year : Nat := 31557600
/-- seconds of a twelfth of a year, rounded to hundredths of a day -/
def month : Nat := 2630016
def week : Nat := 604800
def day : Nat := 86400
def hour : Nat := 3600
def minute : Nat := 60

/-- a count with its unit, none if the count is zero -/
def countText (plural : Bool) (unit : String) (n : Nat) : Option String :=
  if n = 0 then none
  else some (Text.showNat n ++ unit ++ if plural && n > 1 then "s" else "")

/-- whole seconds as a list of counts, the largest unit first -/
def secondsText (n : Nat) : String :=
  let inYear := n % year
  let inMonth := inYear % month
  let inDay := inMonth % day
  let counts :=
    [countText true "year" (n / year), countText true "month" (inYear / month),
     countText true "day" (inMonth / day), countText false "h" (inDay / hour),
     countText false "m" (inDay % hour / minute), countText false "s" (inDay % minute)]
  match counts.filterMap id with
  | [] => "0s"
  | texts => " ".intercalate texts

/-- the span for a summary -/
def briefText (d : Duration) : String :=
  if d.seconds ≥ 1 then secondsText d.seconds
  else Text.showNat (d.nanoseconds / 1000000) ++ "ms"

end Duration

end DiskLayers
