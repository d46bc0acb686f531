import DiskLayers.Layer.Files
import DiskLayers.Lock.Basic

/-!
# The store

A store is a directory that holds disks, markers, records of machines, and locks:

```text
layers/     base images and derived layers, by key
tags/       ends of chains, by tag
instances/  disks of machines, each with a record that names its tag
locks/      lock files of layers and of tags
```

A disk that is there and has no marker is in the cache; there is no other index.

* `Store.open`, `Store.openReadOnly`   the store at a path, made if need be, or only looked at
* `Store.layerPath`, `tagPath`, `instancePath`, `recordPath`, `lockPath`
                                       where things are
* `Store.lock`                         an operation under the lock of a layer
* `Store.tagNamed`, `Store.tagLayer`   the layer of a tag
* `Store.instancesOf`                  the machines whose disks are backed by a tag
* `Store.removeTag`                    takes a tag away, unless a machine needs it
* `Store.recordInstance`, `Store.removeInstance`
                                       records that a machine is backed by a tag, and forgets it
-/

namespace DiskLayers

/-- A store, by the absolute path of its directory. -/
structure Store where
  root : Path
  deriving DecidableEq, Repr, Inhabited

/-- the file name of a disk -/
def diskName (name : String) : String := name ++ "." ++ diskFormat

/-- the extension of records of machines -/
def recordExtension : String := "tag"

namespace Store

def layersDir : String := "layers"
def tagsDir : String := "tags"
def instancesDir : String := "instances"
def locksDir : String := "locks"

/-- a directory with all directories above it -/
def makeDirectories (dir : Path) : Act σ StoreError Unit :=
  .ofFunction fun w =>
    let (r, files) := w.files.makeDirectories dir
    (r.mapError (.createDir dir), w.note (.made dir) files)

/-- The store at a path, with its directories.  Paths of disks are recorded in other disks, so
the path is made absolute. -/
def «open» (root : Path) : Act σ StoreError Store := do
  match root.absolute? (← Act.inspect (·.currentPath)) with
  | none => throw (.createDir root .emptyPath)
  | some whole =>
    makeDirectories (whole.join layersDir)
    makeDirectories (whole.join tagsDir)
    makeDirectories (whole.join instancesDir)
    makeDirectories (whole.join locksDir)
    return ⟨whole⟩

/-- The store at a path, for looking at it.  Nothing is made; a store that is not there looks
empty. -/
def openReadOnly (fs : FileSystem) (root : Path) : Except StoreError Store :=
  match root.absolute? fs.currentPath with
  | none => .error (.io "resolve" root .emptyPath)
  | some whole => .ok ⟨whole⟩

/-- the disk of a base image or a derived layer -/
def layerPath (s : Store) (identity : Identity) : Path :=
  (s.root.join layersDir).join (diskName identity.name)

/-- the disk of a tag -/
def tagPath (s : Store) (name : String) : Path := (s.root.join tagsDir).join (diskName name)

/-- the disk of a machine -/
def instancePath (s : Store) (name : String) : Path :=
  (s.root.join instancesDir).join (diskName name)

/-- the record that names the tag of a machine's disk -/
def recordPath (s : Store) (name : String) : Path :=
  (s.root.join instancesDir).join (name ++ "." ++ recordExtension)

/-- the directory of the locks for layers of a kind -/
def lockDir : LayerKind → String
  | .tag => tagsDir
  | .base | .derived => layersDir

/-- the lock of a layer; tags and other layers do not share locks -/
def lockPath (s : Store) (kind : LayerKind) (identity : Identity) : Path :=
  ((s.root.join locksDir).join (lockDir kind)).join (identity.name ++ ".lock")

/-- takes the lock of a layer -/
def acquire (s : Store) (l : Layer) (command : String) (wait : Duration) :
    Act σ StoreError Lock :=
  (Lock.acquire (s.lockPath l.kind l.identity) l.identity.name command wait).mapError .lock

/-- the layer of a tag, whether or not it is there -/
def tagNamed (s : Store) (name : String) : Layer :=
  ⟨⟨name⟩, none, s.tagPath name, .tag, "TAG:" ++ name⟩

/-- the layer of a tag, if it is complete -/
def tagLayer (s : Store) (fs : FileSystem) (name : String) : Except StoreError (Option Layer) :=
  if isValidName name then
    let l := s.tagNamed name
    .ok (if l.isComplete fs then some l else none)
  else .error (.invalidName name)

/-- the machine that a file name in the directory of instances is a record of -/
def recordedMachine? (file : String) : Option String :=
  let p : Path := ⟨file⟩
  if p.extension? = some recordExtension then p.stem? else none

/-- The machine of a record, if its disk is there and the record names the tag.  A record without
a disk is stale. -/
def machineOf? (s : Store) (fs : FileSystem) (tag file : String) :
    Except StoreError (Option String) :=
  match recordedMachine? file with
  | none => .ok none
  | some machine =>
    if fs.isFile (s.instancePath machine) then
      let p := (s.root.join instancesDir).join file
      match fs.readText p with
      | .error e => .error (.io "read" p e)
      | .ok text => .ok (if Text.trim text = tag then some machine else none)
    else .ok none

def instancesOf (s : Store) (fs : FileSystem) (tag : String) : Except StoreError (List String) :=
  let dir := s.root.join instancesDir
  match fs.readDirectory dir with
  | .error e => if e = .notFound then .ok [] else .error (.io "read" dir e)
  | .ok files => do
    let machines ← files.mapM (s.machineOf? fs tag)
    return (machines.filterMap id).mergeSort FileSystem.nameLE

/-- fails if a machine runs on a disk that is backed by the tag -/
def ensureUnused (s : Store) (fs : FileSystem) (tag : String) : Except StoreError Unit :=
  match s.instancesOf fs tag with
  | .error e => .error e
  | .ok [] => .ok ()
  | .ok machines => .error (.tagInUse tag machines)

/-- the same, in the world of an operation -/
def refuseIfUsed (s : Store) (tag : String) : Act σ StoreError Unit :=
  .ofFunction fun w => (s.ensureUnused w.files tag, w)

/-- Takes a tag away.  It is refused while a machine runs on a disk backed by it. -/
def removeTag (s : Store) (name command : String) (wait : Duration) : Act σ StoreError Unit := do
  let found ← Act.ofFunction fun w => (s.tagLayer w.files name, w)
  match found with
  | none => throw (.tagNotFound name)
  | some l =>
    Lock.during (s.acquire l command wait) do
      s.refuseIfUsed name
      l.discard

/-- records that the disk of a machine is backed by a tag -/
def recordInstance (s : Store) (machine tag : String) : Act σ StoreError Unit :=
  writePath (s.recordPath machine) (tag ++ "\n")

/-- takes the disk of a machine and its record away -/
def removeInstance (s : Store) (machine : String) : Act σ StoreError Unit := do
  removePath (s.instancePath machine)
  removePath (s.recordPath machine)

end Store

end DiskLayers
