import DiskLayers.Build.Report
import DiskLayers.Layer.Arena
import DiskLayers.Store.Basic

/-!
# Folding operations into a chain of layers

* `Context`          what one build has done so far
* `Context.extend`   the layer that an operation adds to the chain, if the script allows it
* `realize`          finds the disk of a layer or makes it
* `Folding`          a step of a build: it changes the context and the world
* `applyOne`, `applyAll`, `tagAs`
                     one operation, several, a tag
* `Context.outcome`  the result of the build

Only what is in the store counts as cache; a context is never kept.  A layer is looked for twice,
before its lock is taken and under the lock, since another process may make it in between.
`Folding.runIn_bind` and the lemmas beside it say what running does to steps.
-/

namespace DiskLayers

structure Context where
  arena : Arena := {}
  /-- the layers of the finished steps, in order -/
  chain : List LayerId := []
  steps : List StepReport := []
  stats : BuildStats := {}
  tag : Option String := none
  deriving Inhabited

namespace Context

/-- the last layer of the chain -/
def current? (c : Context) : Option (LayerId × Layer) := do
  let id ← c.chain.getLast?
  return (id, ← c.arena.get? id)

/-- the layers of the chain, in order -/
def layers (c : Context) : List Layer := c.chain.filterMap c.arena.get?

/-- a layer that a step is to make real: its place, itself, and the layer below it -/
structure Goal where
  id : LayerId
  layer : Layer
  parent : Option Layer

/-- The layer that an operation adds to the chain.  The first has to be a base, and no other. -/
def extend (s : Store) (c : Context) (op : Operation) : Except ScriptError (Goal × Context) :=
  match c.current? with
  | none =>
    match op with
    | .base reference =>
      match Identity.base? reference with
      | none => .error (.emptyBaseReference reference)
      | some identity =>
        let l : Layer := ⟨identity, none, s.layerPath identity, .base, op.descriptor⟩
        let (id, arena) := c.arena.push l
        .ok (⟨id, l, none⟩, { c with arena := arena })
    | _ => .error (.missingBase op.descriptor)
  | some (parentId, parent) =>
    if op.isBase then .error (.repeatedBase op.descriptor)
    else
      let identity := parent.derivedIdentity op
      let l : Layer := ⟨identity, some parentId, s.layerPath identity, .derived, op.descriptor⟩
      let (id, arena) := c.arena.push l
      .ok (⟨id, l, some parent⟩, { c with arena := arena })

/-- the context after a step that succeeded -/
def record (c : Context) (id : LayerId) (l : Layer) (status : StepStatus) : Context :=
  { c with
    chain := c.chain ++ [id]
    steps := c.steps ++ [⟨l.directive, l.identity, status⟩]
    stats := c.stats.add status }

def outcome (c : Context) : Except BuildError BuildOutcome :=
  match c.current? with
  | none => .error (.script .empty)
  | some (_, l) => .ok ⟨l, c.steps, c.tag, c.stats, []⟩

end Context

/-- a disk that may be used as it is: it is complete, and no derived one that is to be made anew -/
def isReusable (force : Bool) (l : Layer) (fs : FileSystem) : Bool :=
  (l.parent.isNone || !force) && l.isComplete fs

/-- Makes the disk of a layer.  The marker goes up before the first call and comes down after the
last, so that whatever is left after a failure does not look complete. -/
def makeDisk (backend : Backend σ) (l : Layer) (parent : Option Layer) (op : Operation) :
    Act σ BuildError Unit := do
  l.discard.mapError (.ofStore l)
  l.mark.mapError (.ofStore l)
  if let some parent := parent then (l.snapshotOf backend parent).mapError (.ofStore l)
  (l.apply backend op).mapError (.ofApply l)
  l.unmark.mapError (.ofStore l)

/-- Finds the disk of a layer or makes it under its lock. -/
def realize (backend : Backend σ) (s : Store) (config : BuildConfig) (l : Layer)
    (parent : Option Layer) (op : Operation) : Act σ BuildError StepStatus := do
  if ← Act.inspect (isReusable config.force l) then return .cached
  Lock.during ((s.acquire l config.command config.lockWait).mapError (.ofStore l)) do
    if ← Act.inspect (isReusable config.force l) then return .cached
    makeDisk backend l parent op
    return .built

/-- A step of a build.  Context and world keep what was done before an error. -/
abbrev Folding (σ : Type) := ExceptT BuildError (StateT Context (StateM (World σ)))

namespace Folding

/-- runs a step -/
def runIn (step : Folding σ α) (c : Context) (w : World σ) :
    (Except BuildError α × Context) × World σ :=
  (step.run.run c).run w

/-- a step from what it does to context and world -/
def ofFunction (f : Context → World σ → (Except BuildError α × Context) × World σ) : Folding σ α :=
  ExceptT.mk (f : StateT Context (StateM (World σ)) _)

/-- an operation on the world as a step -/
def ofAct (act : Act σ BuildError α) : Folding σ α :=
  ofFunction fun c w =>
    let (r, w) := act.runIn w
    ((r, c), w)

theorem runIn_pure (a : α) (c : Context) (w : World σ) :
    (pure a : Folding σ α).runIn c w = ((.ok a, c), w) := rfl
theorem runIn_throw (e : BuildError) (c : Context) (w : World σ) :
    (throw e : Folding σ α).runIn c w = ((.error e, c), w) := rfl
theorem runIn_ofAct (act : Act σ BuildError α) (c : Context) (w : World σ) :
    (ofAct act).runIn c w = (((act.runIn w).1, c), (act.runIn w).2) := rfl

/-- the second step runs with what the first one leaves, if that succeeds -/
theorem runIn_bind (step : Folding σ α) (f : α → Folding σ β) (c : Context) (w : World σ) :
    (step >>= f).runIn c w
      = match step.runIn c w with
        | ((.ok a, c), w) => (f a).runIn c w
        | ((.error e, c), w) => ((.error e, c), w) := by
  simp only [runIn, ExceptT.run_bind, StateT.run_bind]
  rcases h : StateT.run (StateT.run (ExceptT.run step) c) w with ⟨⟨r, d⟩, v⟩
  cases r <;> rfl

end Folding

/-- one operation of a script -/
def applyOne (backend : Backend σ) (s : Store) (config : BuildConfig) (op : Operation) :
    Folding σ LayerId := do
  match (← get).extend s op with
  | .error e => throw (.script e)
  | .ok (goal, c) =>
    set c
    let status ← Folding.ofAct (realize backend s config goal.layer goal.parent op)
    modify (·.record goal.id goal.layer status)
    return goal.id

/-- several operations, one after the other -/
def applyAll (backend : Backend σ) (s : Store) (config : BuildConfig) :
    List Operation → Folding σ Unit
  | [] => pure ()
  | op :: ops => do
    let _ ← applyOne backend s config op
    applyAll backend s config ops

/-- The disk of a tag, made anew from the end of the chain under the lock of the tag.  It is
refused while a machine runs on a disk backed by the tag. -/
def makeTag (backend : Backend σ) (s : Store) (config : BuildConfig) (l terminal : Layer) :
    Act σ BuildError Unit :=
  Lock.during ((s.acquire l config.command config.lockWait).mapError (.ofStore l))
    (Act.mapError (.ofStore l) do
      s.refuseIfUsed l.identity.name
      l.discard
      l.mark
      l.snapshotOf backend terminal
      l.unmark)

/-- the end of the chain under a name of its own, in place of an earlier tag of that name -/
def tagAs (backend : Backend σ) (s : Store) (config : BuildConfig) (name : String) :
    Folding σ String := do
  if !isValidName name then throw (.script (.invalidTag name))
  match (← get).current? with
  | none => throw (.script .nothingToTag)
  | some (terminalId, terminal) =>
    let l : Layer := { s.tagNamed name with parent := some terminalId }
    modify fun c => { c with arena := (c.arena.push l).2 }
    Folding.ofAct (makeTag backend s config l terminal)
    modify fun c => { c with tag := some name }
    return name

end DiskLayers
