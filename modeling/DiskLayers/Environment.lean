import DiskLayers.Build.Report
import DiskLayers.Tool.Toolchain

/-!
# The environment of the program

* `Environment`              the variables that are set
* `Environment.home`, `cacheDir`, `storeDir`
                             where things are kept by default
* `Environment.toolchain`    the tools, as the variables choose them
* `Environment.buildConfig`  the choices of a build, as the variables make them
-/

namespace DiskLayers

/-- The variables that are set, with their values. -/
structure Environment where
  settings : List (String × String)
  deriving DecidableEq, Repr, Inhabited

namespace Environment

/-- the value of a variable -/
def get? (e : Environment) (name : String) : Option String := e.settings.lookup name

/-- the value of a variable that is not empty -/
def nonEmpty? (e : Environment) (name : String) : Option String := (e.get? name).filter (· ≠ "")

/-- the home directory -/
def home (e : Environment) : Path := ⟨(e.get? "HOME").getD "/"⟩

/-- the directory of all programs for what can be made again -/
def cacheHome (e : Environment) : Path :=
  match e.get? "XDG_CACHE_HOME" with
  | some dir => ⟨dir⟩
  | none => e.home.join ".cache"

/-- the directory of this program for what can be made again -/
def cacheDir (e : Environment) : Path := e.cacheHome.join programName

/-- the directory of the store -/
def storeDir (e : Environment) : Path :=
  match e.nonEmpty? "STRATA_STORE" with
  | some dir => ⟨dir⟩
  | none => e.cacheDir.join "store"

/-- the greatest number of seconds a variable can give -/
def maxSeconds : Nat := 18446744073709551615

/-- a limit of whole seconds; zero is none -/
def seconds? (text : String) : Option Duration :=
  ((Text.readBounded? maxSeconds text.toList).filter (· > 0)).map fun n => ⟨n, 0⟩

/-- the tools: variables that are not empty name other programs, and one sets the limit -/
def toolchain (e : Environment) : Toolchain :=
  let t : Toolchain := {}
  { virtBuilder := (e.nonEmpty? "STRATA_VIRT_BUILDER").getD t.virtBuilder
    qemuImg := (e.nonEmpty? "STRATA_QEMU_IMG").getD t.qemuImg
    virtCustomize := (e.nonEmpty? "STRATA_VIRT_CUSTOMIZE").getD t.virtCustomize
    virtInstall := (e.nonEmpty? "STRATA_VIRT_INSTALL").getD t.virtInstall
    virsh := (e.nonEmpty? "STRATA_VIRSH").getD t.virsh
    timeout := (e.get? "STRATA_TOOL_TIMEOUT").bind seconds? }

def buildConfig (e : Environment) : BuildConfig := { storeRoot := e.storeDir }

end Environment

end DiskLayers
