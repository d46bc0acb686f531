import DiskLayers.Double
import DiskLayers.Text.Decimal

/-!
# Sizes for people

* `tenths`        a quotient in tenths, rounded
* `sizeText`      a number of bytes in the largest fitting unit, with one place: `1.5 KB`

Sizes are divided as doubles, so that a size of more than 53 bits is rounded once before.  A half
goes to the even neighbour both times.
-/

namespace DiskLayers

/-- a quotient with one place behind the point -/
def tenths (num den : Nat) : String :=
  let t := roundQuotient (num * 10) den
  Text.showNat (t / 10) ++ "." ++ Text.showNat (t % 10)

/-- a size in a unit -/
def sizeIn (unit : Nat) (name : String) (bytes : Nat) : String :=
  tenths (nearestDouble bytes) unit ++ " " ++ name

def kilobyte : Nat := 1024
def megabyte : Nat := 1048576
def gigabyte : Nat := 1073741824

/-- a number of bytes for people -/
def sizeText (bytes : Nat) : String :=
  if bytes ≥ gigabyte then sizeIn gigabyte "GB" bytes
  else if bytes ≥ megabyte then sizeIn megabyte "MB" bytes
  else if bytes ≥ kilobyte then sizeIn kilobyte "KB" bytes
  else Text.showNat bytes ++ " B"

example : sizeText 1536 = "1.5 KB" := by decide +kernel
example : sizeText 1280 = "1.2 KB" := by decide +kernel

end DiskLayers
