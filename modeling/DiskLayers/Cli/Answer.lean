import DiskLayers.Build.Plan
import DiskLayers.Build.Run
import DiskLayers.Cli.Request
import DiskLayers.Cli.Size
import DiskLayers.Store.Listing

/-!
# What the command line answers

* `CliAnswer`          the result of a command that succeeded
* `CliAnswer.stdout`   what it prints, as text or as JSON
* `CliAnswer.stderr`   its warnings
* `failureLine`        what a failure prints: the error and what lies behind it
-/

namespace DiskLayers

inductive CliAnswer where
  | built (outcome : BuildOutcome)
  | planned (warnings : List Warning) (steps : List PlannedStep)
  | listed (disks : List StoredDisk)
  | untagged (name : String)
  | started (machine : MachineSpec) (tag : String) (disk : Path)
  /-- the user has left a console -/
  | attached
  | destroyed (name : String)
  deriving DecidableEq, Repr

/-- lines, each with its end -/
def linesText (ls : List String) : String := String.join (ls.map (· ++ "\n"))

def successLine (message : String) : String := "✓ " ++ message
def infoLine (message : String) : String := "• " ++ message
def warningLine (message : String) : String := "⚠ " ++ message

def failureLine (texts : List String) : String := "✗ " ++ ": ".intercalate texts

/-- a line of a summary -/
def statLine (label value : String) : String := "  " ++ label ++ ": " ++ value

/-- a step: a sign for a disk that is there or one that is made, the key, and what made it -/
def stepLine (cached : Bool) (identity : Identity) (directive : String) : String :=
  (if cached then "  = " else "  + ") ++ identity.name ++ "  " ++ directive

/-- a text with blanks behind it up to a width -/
def padRight (width : Nat) (s : String) : String :=
  s ++ String.ofList (List.replicate (width - s.length) ' ')

/-- a text with blanks before it up to a width -/
def padLeft (width : Nat) (s : String) : String :=
  String.ofList (List.replicate (width - s.length) ' ') ++ s

/-- a disk in a list -/
def diskLine (d : StoredDisk) : String :=
  padRight 6 (if d.kind = .tag then "tag" else "layer") ++ " " ++ padRight 24 d.name ++ " " ++
    padLeft 10 (sizeText d.size) ++ if d.complete then "" else " (incomplete)"

/-- the lines of a build, which took `elapsed` -/
def buildLines (o : BuildOutcome) (elapsed : Duration) : List String :=
  o.steps.map (fun r => stepLine (r.status = .cached) r.identity r.directive) ++
    ["", successLine "Build complete!", statLine "Layer" o.terminal.identity.name,
     statLine "Disk" o.terminal.location.text] ++
    (o.tag.map (statLine "Tag")).toList ++
    [statLine "Steps" (Text.showNat o.stats.total), statLine "Cached" (Text.showNat o.stats.cached),
     statLine "Built" (Text.showNat o.stats.built), statLine "Duration" elapsed.briefText]

/-- the lines of a plan -/
def planLines (steps : List PlannedStep) : List String :=
  let cached := (steps.filter (·.cached)).length
  steps.map (fun p => stepLine p.cached p.identity p.directive) ++
    ["", infoLine (Text.showNat cached ++ " cached, " ++ Text.showNat (steps.length - cached) ++
      " to build")]

namespace CliAnswer

/-- the lines of a result -/
def lines (elapsed : Duration) : CliAnswer → List String
  | .built o => buildLines o elapsed
  | .planned _ steps => planLines steps
  | .listed [] => [infoLine "Store is empty"]
  | .listed disks => disks.map diskLine
  | .untagged name => [successLine ("Removed tag " ++ name)]
  | .started m tag disk =>
    [successLine ("Started " ++ m.name ++ " from tag " ++ tag), statLine "Disk" disk.text,
     statLine "Memory" (Text.showNat m.memoryMiB ++ " MiB"),
     statLine "vCPUs" (Text.showNat m.vcpus)]
  | .attached => []
  | .destroyed name => [successLine ("Destroyed " ++ name)]

/-- a result as JSON, if it says anything -/
def json? (elapsed : Duration) : CliAnswer → Option Json
  | .built o => some (.ofFields (o.fields ++ [("duration_ms", .ofNat elapsed.toMilliseconds)]))
  | .planned _ steps => some (.ofList PlannedStep.toJson steps)
  | .listed disks => some (.ofList StoredDisk.toJson disks)
  | .untagged name => some (.ofFields [("removed", .ofString name)])
  | .started m tag disk =>
    some (.ofFields
      [("disk", .ofString disk.text), ("machine", m.toJson), ("tag", .ofString tag)])
  | .attached => none
  | .destroyed name => some (.ofFields [("destroyed", .ofString name)])

/-- what a result prints -/
def stdout (format : OutputFormat) (elapsed : Duration) (a : CliAnswer) : String :=
  match format with
  | .text => linesText (a.lines elapsed)
  | .json => linesText ((a.json? elapsed).map Json.pretty).toList

/-- the warnings of a result; JSON holds them already or leaves them out -/
def stderr (format : OutputFormat) (a : CliAnswer) : String :=
  match format, a with
  | .text, .built o => linesText (o.warnings.map (warningLine ·.message))
  | .text, .planned warnings _ => linesText (warnings.map (warningLine ·.message))
  | _, _ => ""

end CliAnswer

end DiskLayers
