import DiskLayers.Build.Report
import DiskLayers.Store.Basic

/-!
# Machines on tagged disks

A machine never runs on the disk of a tag but on one of its own that is backed by it, so that tags
do not change.  The store records which tag that is.

* `MachineError`   what can go wrong, with its text
* `launch`         makes the disk of a machine and starts it
* `attach`         shows the console of a machine
* `destroy`        stops a machine and takes its disk away
-/

namespace DiskLayers

inductive MachineError where
  | invalidName (name : String)
  | unknownTag (name : String)
  | instanceExists (name : String)
  | storage (name : String) (cause : StoreError)
  | create (name : String) (cause : ToolError)
  | attach (name : String) (cause : ToolError)
  | destroy (name : String) (cause : ToolError)
  deriving DecidableEq, Repr, Inhabited

namespace MachineError

def message : MachineError → String
  | .invalidName name => "invalid machine name `" ++ name ++ "`"
  | .unknownTag name => "tag `" ++ name ++ "` not found in store"
  | .instanceExists name => "machine `" ++ name ++ "` already has an instance disk"
  | .storage name cause => "instance disk for `" ++ name ++ "`: " ++ cause.message
  | .create name cause => "failed to create vm `" ++ name ++ "`: " ++ cause.message
  | .attach name cause => "failed to attach to vm `" ++ name ++ "`: " ++ cause.message
  | .destroy name cause => "failed to destroy vm `" ++ name ++ "`: " ++ cause.message

/-- the texts behind an error, the nearest first -/
def causes : MachineError → List String
  | .invalidName _ | .unknownTag _ | .instanceExists _ => []
  | .storage _ cause => cause.message :: cause.causes
  | .create _ cause | .attach _ cause | .destroy _ cause => cause.message :: cause.causes

end MachineError

/-- an operation; if it fails, another one is done and only the first error is told -/
def orElseUndo (act : Act σ ε α) (undo : Act σ ε' Unit) : Act σ ε α :=
  .ofFunction fun w =>
    match act.runIn w with
    | (.ok a, w) => (.ok a, w)
    | (.error e, w) => (.error e, (undo.runIn w).2)

/-- The disk of a machine under the lock of its tag, its record, and the machine itself.  Once the
disk is made, a failure takes it away again. -/
def launchLocked (backend : Backend σ) (s : Store) (tag : Layer) (m : MachineSpec) :
    Act σ MachineError Path := do
  if !(← Act.inspect tag.isComplete) then throw (.unknownTag tag.identity.name)
  let disk := s.instancePath m.name
  (Act.call backend (.snapshot tag.location disk)).mapError fun e => .storage m.name (.backend e)
  orElseUndo ((s.recordInstance m.name tag.identity.name).mapError (.storage m.name))
    (s.removeInstance m.name)
  orElseUndo ((Act.call backend (.createMachine disk m)).mapError (.create m.name))
    (s.removeInstance m.name)
  return disk

/-- Makes a disk for a machine from a tag and starts the machine on it.  The lock of the tag is
held all the while, so that the tag is not taken away in between. -/
def launch (backend : Backend σ) (s : Store) (tag : String) (m : MachineSpec) :
    Act σ MachineError Path := do
  if !isValidName m.name then throw (.invalidName m.name)
  let found ← Act.mapError (.storage m.name)
    (Act.ofFunction fun w => (s.tagLayer w.files tag, w))
  match found with
  | none => throw (.unknownTag tag)
  | some l =>
    if ← Act.inspect (·.isPresent (s.instancePath m.name)) then throw (.instanceExists m.name)
    Lock.during
      ((s.acquire l (programName ++ " run " ++ tag) defaultLockWait).mapError (.storage m.name))
      (launchLocked backend s l m)

/-- shows the console of a machine until it is left -/
def attach (backend : Backend σ) (name : String) : Act σ MachineError Unit :=
  (Act.call backend (.attachMachine name)).mapError (.attach name)

def destroy (backend : Backend σ) (s : Store) (name : String) : Act σ MachineError Unit := do
  if !isValidName name then throw (.invalidName name)
  (Act.call backend (.destroyMachine name)).mapError (.destroy name)
  (s.removeInstance name).mapError (.storage name)

end DiskLayers
