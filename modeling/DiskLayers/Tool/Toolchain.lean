import DiskLayers.Layer.Files
import DiskLayers.Tool.Host

/-!
# The tools of the host

* `Toolchain`            which programs to run, and how long each may take
* `escapeOption`         a value within a list of options: commas are doubled
* `Toolchain.diskOption`, `Toolchain.metadataOption`
                         options of a machine
* `Toolchain.arguments`  the programs and arguments of a call
* `Toolchain.perform`    what a call does
* `Toolchain.backend`    the tools as a backend
-/

namespace DiskLayers

structure Toolchain where
  virtBuilder : String := "virt-builder"
  qemuImg : String := "qemu-img"
  virtCustomize : String := "virt-customize"
  virtInstall : String := "virt-install"
  virsh : String := "virsh"
  /-- the limit of every program that does not talk to the user; without one it may take forever -/
  timeout : Option Duration := none
  deriving DecidableEq, Repr, Inhabited

/-- a value within a list of options that commas separate: a comma of its own is doubled -/
def escapeOption (value : String) : String :=
  String.ofList (Text.replaceChar ',' [',', ','] value.toList)

namespace Toolchain

/-- the arguments that make a disk from a template -/
def materializeArgs (template format : String) (target : Path) : List String :=
  [template, "--format", format, "-o", target.text]

/-- the arguments that make a disk backed by another one -/
def snapshotArgs (parent new : Path) : List String :=
  ["create", "-f", diskFormat, "-F", diskFormat, "-b", parent.text, new.text]

/-- the arguments of a guest command -/
def guestArgs : GuestCommand → List String
  | .shell command => ["--run-command", command]
  | .write path content => ["--write", path ++ ":" ++ content]

/-- the arguments that work inside a disk -/
def executeArgs (target : Path) (command : GuestCommand) : List String :=
  ["-a", target.text, "--format", diskFormat, "--network"] ++ guestArgs command

/-- the disk of a machine -/
def diskOption (disk : Path) : String :=
  "path=" ++ escapeOption disk.text ++ ",format=" ++ diskFormat

/-- the notes about a machine -/
def metadataOption (description : String) : String :=
  "description=" ++ escapeOption description

/-- the arguments that define and start a machine -/
def createArgs (disk : Path) (m : MachineSpec) : List String :=
  ["--name", m.name, "--memory", Text.showNat m.memoryMiB, "--vcpus", Text.showNat m.vcpus,
   "--disk", diskOption disk, "--import", "--noautoconsole", "--os-variant",
   "detect=on,require=off"] ++
    match m.description with
    | none => []
    | some description => ["--metadata", metadataOption description]

/-- what a stopped machine's domain is said to be when it is stopped again -/
def notRunning : String := "not running"

/-- Stops a machine and forgets its definition.  A machine that does not run need not be
stopped. -/
def destroy (t : Toolchain) (host : Host σ) (name : String) : Tooling σ Unit := do
  try
    let _ ← runTool host t.virsh ["destroy", name] t.timeout
  catch
    | .failed program code stderr =>
      if !Text.contains notRunning.toList stderr.toList then throw (.failed program code stderr)
    | e => throw e
  let _ ← runTool host t.virsh ["undefine", name] t.timeout

def perform (t : Toolchain) (host : Host σ) : Call → Tooling σ Unit
  | .materialize template format target => do
    let _ ← runTool host t.virtBuilder (materializeArgs template format target) t.timeout
  | .snapshot parent new => do
    let _ ← runTool host t.qemuImg (snapshotArgs parent new) t.timeout
  | .execute target command => do
    let _ ← runTool host t.virtCustomize (executeArgs target command) t.timeout
  | .createMachine disk m => do
    let _ ← runTool host t.virtInstall (createArgs disk m) t.timeout
  | .attachMachine name => runInteractive host t.virsh ["console", name]
  | .destroyMachine name => t.destroy host name

def backend (t : Toolchain) (host : Host σ) : Backend σ := fun c s fs => (t.perform host c).run.run (s, fs)

end Toolchain

end DiskLayers
