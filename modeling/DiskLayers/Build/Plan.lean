import DiskLayers.Build.Report
import DiskLayers.Store.Basic

/-!
# Planning a build

The keys of all layers of a script, and which of them are in the store, without any call and
without any change.

* `PlannedStep`   a step that a build would do
* `plan`          the steps of a list of operations, by the rules of a build
-/

namespace DiskLayers

structure PlannedStep where
  directive : String
  identity : Identity
  /-- a complete disk of this key is in the store -/
  cached : Bool
  deriving DecidableEq, Repr, Inhabited

namespace PlannedStep

/-- the step that makes the layer of a key -/
def of (s : Store) (fs : FileSystem) (op : Operation) (identity : Identity) : PlannedStep :=
  let disk := s.layerPath identity
  ⟨op.descriptor, identity, fs.isFile disk && !fs.isPresent (Layer.markerOf disk)⟩

def toJson (p : PlannedStep) : Json :=
  .ofFields
    [("directive", .ofString p.directive), ("identity", .ofString p.identity.name),
     ("cached", .bool p.cached)]

end PlannedStep

/-- the steps above a layer -/
def planAbove (s : Store) (fs : FileSystem) (parent : Identity) :
    List Operation → Except ScriptError (List PlannedStep)
  | [] => .ok []
  | op :: ops =>
    if op.isBase then .error (.repeatedBase op.descriptor)
    else do
      let identity := parent.derive op
      let steps ← planAbove s fs identity ops
      return PlannedStep.of s fs op identity :: steps

def plan (s : Store) (fs : FileSystem) : List Operation → Except ScriptError (List PlannedStep)
  | [] => .error .empty
  | .base reference :: ops =>
    match Identity.base? reference with
    | none => .error (.emptyBaseReference reference)
    | some identity => do
      let steps ← planAbove s fs identity ops
      return PlannedStep.of s fs (.base reference) identity :: steps
  | op :: _ => .error (.missingBase op.descriptor)

end DiskLayers
