import DiskLayers.Layer.Basic
import DiskLayers.Store.Error
import DiskLayers.World

/-!
# The files of a layer

* `Layer.mark`, `Layer.unmark`   puts the marker next to the disk, takes it away
* `Layer.discard`                takes disk and marker away
* `Layer.snapshotOf`             makes the disk as a difference from that of another layer
* `Layer.apply`                  does to the disk what an operation says
-/

namespace DiskLayers

/-- What can go wrong when an operation is applied to a disk. -/
inductive ApplyError where
  /-- the disk could not be made -/
  | storage (cause : StoreError)
  /-- the guest could not be brought to do its part -/
  | executor (cause : ToolError)
  deriving DecidableEq, Repr

/-- a path without its file, which need not be there -/
def removePath (p : Path) : Act σ StoreError Unit :=
  (Act.removeFile p).mapError (.io "remove" p)

/-- a path with this text -/
def writePath (p : Path) (text : String) : Act σ StoreError Unit :=
  (Act.writeFile p text).mapError (.io "write" p)

/-- the format of every disk -/
def diskFormat : String := "qcow2"

namespace Layer

/-- puts the marker next to the disk; it tells what is being made -/
def mark (l : Layer) : Act σ StoreError Unit := writePath l.marker (l.directive ++ "\n")

/-- takes the marker away -/
def unmark (l : Layer) : Act σ StoreError Unit := removePath l.marker

def discard (l : Layer) : Act σ StoreError Unit := do
  if ← Act.inspect (·.isPresent l.location) then removePath l.location
  l.unmark

def snapshotOf (backend : Backend σ) (l parent : Layer) : Act σ StoreError Unit := do
  if !(← Act.inspect (·.isFile parent.location)) then throw (.missingParent parent.location)
  if (← Act.inspect (·.size? l.location)).any (· > 0) then throw (.alreadyPresent l.location)
  if ← Act.inspect (·.isPresent l.location) then removePath l.location
  (Act.call backend (.snapshot parent.location l.location)).mapError .backend

/-- guest commands on the disk, one after the other -/
def execute (backend : Backend σ) (l : Layer) : List GuestCommand → Act σ ApplyError Unit
  | [] => pure ()
  | c :: cs => do
    (Act.call backend (.execute l.location c)).mapError .executor
    l.execute backend cs

/-- Does to the disk what an operation says.  A base operation makes the disk; every other one
expects it to hold the state of its parent. -/
def apply (backend : Backend σ) (l : Layer) : Operation → Act σ ApplyError Unit
  | .base reference =>
    (Act.call backend (.materialize (Text.trim reference) diskFormat l.location)).mapError
      fun e => .storage (.backend e)
  | op => l.execute backend op.guestCommands

end Layer

end DiskLayers
