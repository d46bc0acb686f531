import DiskLayers.FileSystem.Access
import DiskLayers.Tool.Call

/-!
# The world of an operation

An operation on the store reads and changes files, takes locks that other processes may hold, and
calls host tools.  Whatever it does happens to a WORLD and is written down in its journal.

* `Shared`        what all processes see: files, and which of them are locked
* `Event`         one thing an operation did
* `Moment`        an event with the files before and after it
* `World`         the shared part, the state of the tools, the journal, and what the other
                  processes do as soon as the operation waits for them
* `Act`           an operation: it succeeds or fails and changes the world either way
* `Act.inspect`   what the files tell
* `Act.change`    a change of the files
* `Act.call`      a call of a host tool
* `World.calls`   the calls in the journal

`Act.runIn_pure`, `runIn_bind` and the lemmas beside them say what running does to operations.
-/

namespace DiskLayers

/-- What all processes see: the files, and those that somebody holds a lock on. -/
structure Shared where
  files : FileSystem
  locked : List FileRef := []
  deriving Inhabited

inductive Event where
  | took (lock : Path)
  | released (lock : Path)
  | called (call : Call) (answer : Except ToolError Unit)
  | wrote (file : Path)
  | removed (file : Path)
  /-- a file was opened, and created if it was not there -/
  | opened (file : Path)
  /-- a directory was made with all directories above it, as far as that went -/
  | made (dir : Path)
  /-- the other processes had their turn -/
  | waited

structure Moment where
  event : Event
  before : FileSystem
  after : FileSystem

/-- Everything an operation depends on and may change. -/
structure World (σ : Type) extends Shared where
  /-- the state of the host tools -/
  tools : σ
  /-- what the other processes do when the operation first has to wait for them -/
  meanwhile : Option (Shared → Shared) := none
  /-- the number of the own process -/
  pid : Nat
  /-- the time, in seconds since the epoch -/
  now : Nat
  /-- what the operation did, in order, with all that became of the files -/
  journal : List Moment := []

/-- the call of a moment, if there was one -/
def Moment.call? (m : Moment) : Option Call :=
  match m.event with
  | .called c _ => some c
  | _ => none

/-- the calls of a list of moments -/
def callsOf (moments : List Moment) : List Call := moments.filterMap Moment.call?

namespace World

/-- The world with these files, by an event that is written down.  Files change in no other way. -/
def note (w : World σ) (e : Event) (files : FileSystem) : World σ :=
  { w with files := files, journal := w.journal ++ [⟨e, w.files, files⟩] }

/-- the calls that were made, in order -/
def calls (w : World σ) : List Call := callsOf w.journal

/-- The world after the other processes had their turn, if they have one left. -/
def yield (w : World σ) : World σ :=
  match w.meanwhile with
  | none => w
  | some turn =>
    let shared := turn w.toShared
    { w with locked := shared.locked, meanwhile := none }.note .waited shared.files

theorem calls_note_called (w : World σ) (c : Call) (r : Except ToolError Unit) (files : FileSystem) :
    (w.note (.called c r) files).calls = w.calls ++ [c] := by
  simp [calls, callsOf, note, Moment.call?]

theorem yield_of_none (w : World σ) (h : w.meanwhile = none) : w.yield = w := by simp [yield, h]

end World

/-- An operation.  It fails with an `ε` or succeeds; what it did to the world stays. -/
abbrev Act (σ ε : Type) := ExceptT ε (StateM (World σ))

namespace Act

/-- runs an operation -/
def runIn (act : Act σ ε α) (w : World σ) : Except ε α × World σ := act.run.run w

/-- an operation from what it does to the world -/
def ofFunction (f : World σ → Except ε α × World σ) : Act σ ε α := ExceptT.mk (f : StateM (World σ) _)

/-- the operation with another error -/
def mapError (f : ε → ε') (act : Act σ ε α) : Act σ ε' α := ExceptT.adapt f act

/-- the result of a computation that does not look at the world -/
def ofExcept (r : Except ε α) : Act σ ε α := ofFunction fun w => (r, w)

def inspect (f : FileSystem → α) : Act σ ε α := ofFunction fun w => (.ok (f w.files), w)

/-- A change of the files.  If it is refused, nothing happens. -/
def change (e : Event) (f : FileSystem → Except SystemError FileSystem) : Act σ SystemError Unit :=
  ofFunction fun w =>
    match f w.files with
    | .ok files => (.ok (), w.note e files)
    | .error err => (.error err, w)

def call (backend : Backend σ) (c : Call) : Act σ ToolError Unit :=
  ofFunction fun w =>
    let (r, tools, files) := backend c w.tools w.files
    (r, { w with tools := tools }.note (.called c r) files)

/-- a file with this text and nothing else -/
def writeFile (p : Path) (text : String) : Act σ SystemError Unit :=
  change (.wrote p) fun fs => fs.write p (.ofText text)

/-- a path without its file; it is no error if there is none -/
def removeFile (p : Path) : Act σ SystemError Unit :=
  ofFunction fun w =>
    match w.files.remove p with
    | .ok files => (.ok (), w.note (.removed p) files)
    | .error err => (if err = .notFound then .ok () else .error err, w)

theorem runIn_ofFunction (f : World σ → Except ε α × World σ) (w : World σ) :
    (ofFunction f).runIn w = f w := rfl
theorem runIn_pure (a : α) (w : World σ) : (pure a : Act σ ε α).runIn w = (.ok a, w) := rfl
theorem runIn_throw (e : ε) (w : World σ) : (throw e : Act σ ε α).runIn w = (.error e, w) := rfl

/-- the second operation runs in the world that the first one leaves, if that succeeds -/
theorem runIn_bind (act : Act σ ε α) (f : α → Act σ ε β) (w : World σ) :
    (act >>= f).runIn w
      = match act.runIn w with
        | (.ok a, w) => (f a).runIn w
        | (.error e, w) => (.error e, w) := by
  simp only [runIn, ExceptT.run_bind, StateT.run_bind]
  rcases h : StateT.run (ExceptT.run act) w with ⟨r, v⟩
  cases r <;> rfl

theorem runIn_mapError (f : ε → ε') (act : Act σ ε α) (w : World σ) :
    (act.mapError f).runIn w = ((act.runIn w).1.mapError f, (act.runIn w).2) := rfl

theorem runIn_inspect (f : FileSystem → α) (w : World σ) :
    (inspect f : Act σ ε α).runIn w = (.ok (f w.files), w) := rfl

end Act

end DiskLayers
