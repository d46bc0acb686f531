import DiskLayers.Build.Context

/-!
# Running a build

* `build`          builds a list of operations, and tags the result if a tag is given
* `buildScript`    builds a text
* `BuildOutcome.toJson`
                   the record of a result
-/

namespace DiskLayers

/-- the operations and the tag of a build, in an opened store -/
def buildIn (backend : Backend σ) (s : Store) (config : BuildConfig) (ops : List Operation)
    (tag : Option String) : Folding σ Unit := do
  applyAll backend s config ops
  if let some name := tag then
    let _ ← tagAs backend s config name

/-- Builds operations into the store that the choices name.  An empty list and a bad tag are
refused before anything is done. -/
def build (backend : Backend σ) (config : BuildConfig) (ops : List Operation)
    (tag : Option String) : Act σ BuildError BuildOutcome := do
  if ops = [] then throw (.script .empty)
  if let some name := tag then
    if !isValidName name then throw (.script (.invalidTag name))
  let s ← (Store.open config.storeRoot).mapError .openStore
  Act.ofFunction fun w =>
    match (buildIn backend s config ops tag).runIn {} w with
    | ((.error e, _), w) => (.error e, w)
    | ((.ok (), c), w) => (c.outcome, w)

/-- Builds a text.  Its warnings are part of the result. -/
def buildScript (backend : Backend σ) (config : BuildConfig) (text : String)
    (tag : Option String) : Act σ BuildError BuildOutcome := do
  let script ← Act.ofExcept ((Script.parseWith config.strict text).mapError .script)
  let outcome ← build backend config script.operations tag
  return { outcome with warnings := script.warnings }

namespace Layer

def toJson (l : Layer) : Json :=
  .ofFields
    [("identity", .ofString l.identity.name), ("parent", .ofOption (.ofNat ·.index) l.parent),
     ("location", .ofString l.location.text), ("kind", .ofString l.kind.word),
     ("directive", .ofString l.directive)]

end Layer

namespace StepReport

def toJson (r : StepReport) : Json :=
  .ofFields
    [("directive", .ofString r.directive), ("identity", .ofString r.identity.name),
     ("status", .ofString r.status.word)]

end StepReport

namespace Warning

def toJson (w : Warning) : Json :=
  .ofFields
    (("line", .ofNat w.line) ::
      match w.kind with
      | .unknownDirective keyword =>
        [("kind", .ofString "unknown_directive"), ("keyword", .ofString keyword)]
      | .missingArgument text =>
        [("kind", .ofString "missing_argument"), ("text", .ofString text)])

end Warning

namespace BuildOutcome

/-- the fields of the record of a result -/
def fields (o : BuildOutcome) : List (String × Json) :=
  [("terminal", o.terminal.toJson), ("steps", .ofList StepReport.toJson o.steps),
   ("tag", .ofOption .ofString o.tag),
   ("stats", .ofFields [("cached", .ofNat o.stats.cached), ("built", .ofNat o.stats.built)]),
   ("warnings", .ofList Warning.toJson o.warnings)]

def toJson (o : BuildOutcome) : Json := .ofFields o.fields

end BuildOutcome

end DiskLayers
