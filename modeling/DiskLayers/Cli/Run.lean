import DiskLayers.Cli.Answer
import DiskLayers.Environment
import DiskLayers.Machine.Launch

/-!
# Running a command line

* `CliFailure`          an error with what lies behind it, as texts
* `CliRequest.perform`  does what a command line asks for
* `CliOutput`, `runCommandLine`
                        the exit code and what is printed
-/

namespace DiskLayers

abbrev CliFailure := List String

/-- an error under a headline -/
def underHeadline (headline : String) (message : ε → String) (causes : ε → List String) (e : ε) :
    CliFailure :=
  headline :: message e :: causes e

/-- a store error under a headline -/
def storeFailure (headline : String) : StoreError → CliFailure :=
  underHeadline headline StoreError.message StoreError.causes

/-- an error of a machine -/
def machineFailure (e : MachineError) : CliFailure := e.message :: e.causes

/-- the store for changes -/
def openStore (root : Path) : Act σ CliFailure Store :=
  (Store.open root).mapError (storeFailure "Failed to open layer store")

/-- the store for looking at it -/
def openStoreReadOnly (root : Path) : Act σ CliFailure Store :=
  .ofFunction fun w =>
    ((Store.openReadOnly w.files root).mapError (storeFailure "Failed to open layer store"), w)

/-- the text of a script -/
def readScript (file : Path) : Act σ CliFailure String :=
  .ofFunction fun w =>
    ((w.files.readText file).mapError fun e =>
      ["Failed to read script: " ++ file.text, e.message], w)

/-- a result that the files tell -/
def lookAt (f : FileSystem → Except CliFailure α) : Act σ CliFailure α :=
  .ofFunction fun w => (f w.files, w)

/-- builds a script -/
def performBuild (host : Host σ) (env : Environment) (root file : Path) (tag : Option String)
    (force strict : Bool) (timeout lockWait : Option Duration) : Act σ CliFailure CliAnswer := do
  let file := (← Act.inspect (·.canonical? file)).getD file
  let text ← readScript file
  let config : BuildConfig :=
    { storeRoot := root
      force := force
      strict := strict
      lockWait := lockWait.getD defaultLockWait
      command := programName ++ " build " ++ file.text }
  let tools := env.toolchain
  let tools := { tools with timeout := timeout.or tools.timeout }
  let outcome ← (buildScript (tools.backend host) config text tag).mapError
    (underHeadline ("Build failed: " ++ file.text) BuildError.message BuildError.causes)
  return .built outcome

/-- plans a script -/
def performPlan (root file : Path) : Act σ CliFailure CliAnswer := do
  let script := Script.parse (← readScript file)
  let s ← openStoreReadOnly root
  let steps ← lookAt fun fs =>
    (plan s fs script.operations).mapError fun e =>
      ["Invalid script: " ++ file.text, e.message]
  return .planned script.warnings steps

/-- lists a store -/
def performList (root : Path) : Act σ CliFailure CliAnswer := do
  let s ← openStoreReadOnly root
  let disks ← lookAt fun fs => (s.list fs).mapError (storeFailure "Failed to list store")
  return .listed disks

namespace CliRequest

def perform (host : Host σ) (env : Environment) (r : CliRequest) : Act σ CliFailure CliAnswer := do
  let root := r.store.getD env.storeDir
  let backend := env.toolchain.backend host
  match r.verb with
  | .build file tag force strict timeout lockWait =>
    performBuild host env root file tag force strict timeout lockWait
  | .plan file => performPlan root file
  | .list => performList root
  | .untag name =>
    let s ← openStore root
    (s.removeTag name (programName ++ " untag") defaultLockWait).mapError
      (storeFailure ("Failed to remove tag " ++ name))
    return .untagged name
  | .run tag m =>
    let s ← openStore root
    let disk ← (launch backend s tag m).mapError machineFailure
    return .started m tag disk
  | .attach name =>
    (attach backend name).mapError machineFailure
    return .attached
  | .destroy name =>
    let s ← openStore root
    (destroy backend s name).mapError machineFailure
    return .destroyed name

end CliRequest

/-- The exit code of a command line and what it prints, given the time it took. -/
structure CliOutput where
  code : Nat
  stdout : Duration → String
  stderr : String

/-- the version that the program tells -/
def versionLine : String := programName ++ " 0.1.0"

/-- how the program is used -/
def usageText : String :=
  linesText
    ["strata - layered VM disk images from build scripts", "",
     "Usage: strata [-v] [--store PATH] [-o text|json] COMMAND", "",
     "Commands:",
     "  build [FILE] [-t TAG] [-f] [--strict] [--timeout TIME] [--lock-wait TIME]",
     "  plan [FILE]",
     "  ls",
     "  untag NAME",
     "  run TAG --name NAME [--memory MIB] [--vcpus COUNT] [--meta KEY=VALUE]",
     "  attach NAME",
     "  destroy NAME"]

/-- what is printed when no command is run -/
def CliOutput.ofStop : Stop → CliOutput
  | .help => ⟨0, fun _ => usageText, ""⟩
  | .version => ⟨0, fun _ => linesText [versionLine], ""⟩
  | .usage => ⟨2, fun _ => "", usageText⟩

/-- runs a command line in a world -/
def runCommandLine (host : Host σ) (env : Environment) (words : List String) (w : World σ) :
    CliOutput × World σ :=
  match CliRequest.parse words with
  | .error stop => (.ofStop stop, w)
  | .ok request =>
    match (request.perform host env).runIn w with
    | (.ok answer, w) =>
      (⟨0, fun elapsed => answer.stdout request.format elapsed, answer.stderr request.format⟩, w)
    | (.error texts, w) => (⟨1, fun _ => "", linesText [failureLine texts]⟩, w)

end DiskLayers
