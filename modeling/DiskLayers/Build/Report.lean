import DiskLayers.Layer.Files
import DiskLayers.Script.Error

/-!
# What a build is told and what it tells

* `BuildConfig`    the choices of one build
* `StepStatus`, `StepReport`, `BuildStats`
                   whether a disk was reused or made, for each step and in numbers
* `BuildOutcome`   the result of a build
* `BuildError`     what can go wrong, with its text and the key of the step that failed
-/

namespace DiskLayers

/-- how long to wait for another process that makes the same layer -/
def defaultLockWait : Duration := ⟨600, 0⟩

/-- the name of the program, and of its own processes in lock files -/
def programName : String := "strata"

structure BuildConfig where
  storeRoot : Path
  /-- make every derived layer anew; base images are reused all the same -/
  force : Bool := false
  /-- refuse a script that has warnings -/
  strict : Bool := false
  lockWait : Duration := defaultLockWait
  /-- what lock files say the build is doing -/
  command : String := programName
  deriving DecidableEq, Repr, Inhabited

/-- Whether a step found its disk or made it. -/
inductive StepStatus where
  | cached
  | built
  deriving DecidableEq, Repr, Inhabited

/-- the word for a status -/
def StepStatus.word : StepStatus → String
  | .cached => "cached"
  | .built => "built"

/-- One step of a build. -/
structure StepReport where
  directive : String
  identity : Identity
  status : StepStatus
  deriving DecidableEq, Repr, Inhabited

/-- How many steps found their disks and how many made them. -/
structure BuildStats where
  cached : Nat := 0
  built : Nat := 0
  deriving DecidableEq, Repr, Inhabited

namespace BuildStats

def total (s : BuildStats) : Nat := s.cached + s.built

/-- one more step -/
def add (s : BuildStats) : StepStatus → BuildStats
  | .cached => { s with cached := s.cached + 1 }
  | .built => { s with built := s.built + 1 }

theorem total_add (s : BuildStats) (status : StepStatus) : (s.add status).total = s.total + 1 := by
  cases status <;> simp only [add, total] <;> omega

end BuildStats

/-- The result of a build: its last layer, its steps, and the tag if one was made. -/
structure BuildOutcome where
  terminal : Layer
  steps : List StepReport
  tag : Option String
  stats : BuildStats
  warnings : List Warning
  deriving DecidableEq, Repr, Inhabited

inductive BuildError where
  | script (cause : ScriptError)
  | openStore (cause : StoreError)
  /-- a step could not make or keep its disk -/
  | storage (directive : String) (identity : Identity) (cause : StoreError)
  /-- a step failed inside the guest -/
  | executor (directive : String) (identity : Identity) (cause : ToolError)
  deriving DecidableEq, Repr, Inhabited

namespace BuildError

/-- a store error while a layer was made -/
def ofStore (l : Layer) (e : StoreError) : BuildError := .storage l.directive l.identity e

/-- an error of an operation on the disk of a layer -/
def ofApply (l : Layer) : ApplyError → BuildError
  | .storage e => .storage l.directive l.identity e
  | .executor e => .executor l.directive l.identity e

/-- the key of the step that failed -/
def identity? : BuildError → Option Identity
  | .storage _ identity _ | .executor _ identity _ => some identity
  | .script _ | .openStore _ => none

def message : BuildError → String
  | .script cause => cause.message
  | .openStore cause => "failed to open layer store: " ++ cause.message
  | .storage directive identity cause =>
    directive ++ " (" ++ identity.name ++ "): " ++ cause.message
  | .executor directive identity cause =>
    directive ++ " (" ++ identity.name ++ "): guest command failed: " ++ cause.message

/-- The texts behind an error, the nearest first.  A script error speaks for itself. -/
def causes : BuildError → List String
  | .script _ => []
  | .openStore cause | .storage _ _ cause => cause.message :: cause.causes
  | .executor _ _ cause => cause.message :: cause.causes

end BuildError

end DiskLayers
