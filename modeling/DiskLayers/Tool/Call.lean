import DiskLayers.FileSystem.Basic
import DiskLayers.Machine.Spec
import DiskLayers.Tool.Error
import DiskLayers.Tool.Guest

/-!
# Calls to the tools of the host

Disk images and machines are never touched directly; all that happens to them goes through CALLS.

* `Call`       one call, with all it depends on
* `Backend`    what answers calls: it may change files and a state of its own
-/

namespace DiskLayers

/-- One call to the tools of the host. -/
inductive Call where
  /-- make a disk from an image template -/
  | materialize (template format : String) (target : Path)
  /-- make a disk that keeps only its difference from another one -/
  | snapshot (parent new : Path)
  /-- work inside a disk -/
  | execute (target : Path) (command : GuestCommand)
  /-- define and start a machine on a disk -/
  | createMachine (disk : Path) (spec : MachineSpec)
  /-- show the console of a machine -/
  | attachMachine (name : String)
  /-- stop a machine and forget its definition -/
  | destroyMachine (name : String)
  deriving DecidableEq, Repr

abbrev Backend (σ : Type) := Call → σ → FileSystem → Except ToolError Unit × σ × FileSystem

end DiskLayers
