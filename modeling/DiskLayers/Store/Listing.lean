import DiskLayers.Store.Basic

/-!
# Listing a store

* `StoredDisk`      a disk that was found, with its size and whether it is complete
* `Store.scan`      the disks in one directory
* `Store.list`      all layers and tags: layers first, then by name
-/

namespace DiskLayers

/-- A disk found in a store. -/
structure StoredDisk where
  name : String
  kind : LayerKind
  path : Path
  size : Nat
  complete : Bool
  deriving DecidableEq, Repr, Inhabited

namespace StoredDisk

/-- what a disk sorts by: tags last, then the name -/
def le (a b : StoredDisk) : Bool :=
  match decide (a.kind = .tag), decide (b.kind = .tag) with
  | false, true => true
  | true, false => false
  | _, _ => FileSystem.nameLE a.name b.name

def toJson (d : StoredDisk) : Json :=
  .ofFields
    [("name", .ofString d.name), ("kind", .ofString d.kind.word), ("path", .ofString d.path.text),
     ("size_bytes", .ofNat d.size), ("complete", .bool d.complete)]

end StoredDisk

namespace Store

/-- the name of the disk that a file holds, by its file name -/
def storedName? (file : String) : Option String :=
  let p : Path := ⟨file⟩
  if p.extension? = some diskFormat then p.stem? else none

/-- the kind of a disk, by its directory and name -/
def storedKind (tags : Bool) (name : String) : LayerKind :=
  if tags then .tag
  else if (⟨name⟩ : Identity).isDigest then .derived
  else .base

/-- the disk of a file in a directory, if it is one -/
def storedDisk? (fs : FileSystem) (dir : Path) (tags : Bool) (file : String) :
    Option StoredDisk :=
  (storedName? file).map fun name =>
    let p := dir.join file
    ⟨name, storedKind tags name, p, (fs.sizeIn? dir file).getD 0, !fs.isPresent (Layer.markerOf p)⟩

/-- the disks in a directory; a directory that is not there holds none -/
def scan (fs : FileSystem) (dir : Path) (tags : Bool) : Except StoreError (List StoredDisk) :=
  match fs.readDirectory dir with
  | .error e => if e = .notFound then .ok [] else .error (.io "read" dir e)
  | .ok files => .ok (files.filterMap (storedDisk? fs dir tags))

def list (s : Store) (fs : FileSystem) : Except StoreError (List StoredDisk) := do
  let layers ← scan fs (s.root.join layersDir) false
  let tags ← scan fs (s.root.join tagsDir) true
  return (layers ++ tags).mergeSort StoredDisk.le

end Store

end DiskLayers
