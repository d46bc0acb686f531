import DiskLayers.Json.Printer
import DiskLayers.Json.Reader

/-!
# What a lock file says

* `LockRecord`           the holder of a lock, as its file tells
* `LockRecord.toJson`, `LockRecord.text`
                         how it is written
* `LockRecord.ofJson?`, `LockRecord.read?`
                         how it is read: five fields, each once; others are ignored
-/

namespace DiskLayers

structure LockRecord where
  version : Nat
  pid : Nat
  /-- when the lock was taken, in seconds since the epoch -/
  started : Nat
  /-- what the holder is doing -/
  command : String
  /-- what is locked -/
  identity : String
  deriving DecidableEq, Repr, Inhabited

namespace LockRecord

/-- the version that is written -/
def currentVersion : Nat := 1

/-- the greatest version and process number -/
def maxNumber : Nat := 4294967295

/-- the greatest time -/
def maxTime : Nat := 18446744073709551615

def toJson (r : LockRecord) : Json :=
  .ofFields
    [("version", .ofNat r.version), ("pid", .ofNat r.pid), ("started_at_unix", .ofNat r.started),
     ("command", .ofString r.command), ("identity", .ofString r.identity)]

/-- the bytes of a lock file, as text -/
def text (r : LockRecord) : String := r.toJson.pretty

/-- a record from the values of its fields -/
def ofValues? (version pid started command identity : Json) : Option LockRecord := do
  return ⟨← version.toNat? maxNumber, ← pid.toNat? maxNumber, ← started.toNat? maxTime,
    ← command.toString?, ← identity.toString?⟩

/-- the record of a JSON value; the values alone, in order, will do as well -/
def ofJson? : Json → Option LockRecord
  | .record fields =>
    if fields.all (·.1.isSome) then do
      ofValues? (← Json.field? "version" fields) (← Json.field? "pid" fields)
        (← Json.field? "started_at_unix" fields) (← Json.field? "command" fields)
        (← Json.field? "identity" fields)
    else none
  | .list [version, pid, started, command, identity] =>
    ofValues? version pid started command identity
  | _ => none

/-- the record that a lock file holds -/
def read? (text : String) : Option LockRecord := (Json.parse? text).bind ofJson?

end LockRecord

end DiskLayers
