import DiskLayers.FileSystem.Basic

/-!
# From paths to trails

* `FileSystem.child?`, `descend?`
                        the trail of a name in a directory, and of a directory that is there
* `FileSystem.above?`   the trail of the directory that the last name of a path stands in
* `FileSystem.trail?`   the trail a path names, whether or not there is an entry
* `FileSystem.lookup`   the trail and the entry of a path
* `FileSystem.isPresent`, `isFile`, `isDir`, `size?`
                        what a path leads to
* `FileSystem.sizeIn?`   the size of an entry of a directory
-/

namespace DiskLayers.FileSystem

/-- the longest name a directory takes, in bytes -/
def maxNameLength : Nat := 255

/-- the longest path the operating system takes, in bytes -/
def maxPathLength : Nat := 4095

/-- the trail of a name in a directory; an entry need not be there -/
def child? (here : Trail) (name : List Char) : Except SystemError Trail :=
  if name = ['.', '.'] then .ok here.tail
  else if Path.byteCount name > maxNameLength then .error .nameTooLong
  else .ok (String.ofList name :: here)

/-- the trail of a directory in a directory; it has to be there -/
def descend? (fs : FileSystem) (here : Trail) (name : List Char) : Except SystemError Trail := do
  let next ← child? here name
  match fs.node? next with
  | none => .error .notFound
  | some (.file _ _) => .error .notDirectory
  | some .dir => .ok next

/-- The trail of the directory that the last name of a path stands in.  Every name but the last
has to be that of a directory. -/
def above? (fs : FileSystem) (p : Path) : Except SystemError Trail :=
  let cs := p.chars
  if cs = [] then .error .notFound
  else if cs.contains '\x00' then .error .nulInPath
  else if Path.byteCount cs > maxPathLength then .error .nameTooLong
  else (Path.names cs).dropLast.foldlM fs.descend? (if p.isAbsolute then [] else fs.current)

def trail? (fs : FileSystem) (p : Path) : Except SystemError Trail := do
  let here ← fs.above? p
  match (Path.names p.chars).getLast? with
  | none => .ok here
  | some name => child? here name

def lookup (fs : FileSystem) (p : Path) : Except SystemError (Trail × Node) := do
  let t ← fs.trail? p
  match fs.node? t with
  | none => .error .notFound
  | some .dir => .ok (t, .dir)
  | some n => if Path.wantsDirectory p.chars then .error .notDirectory else .ok (t, n)

/-- whether a path leads to an entry -/
def isPresent (fs : FileSystem) (p : Path) : Bool :=
  match fs.lookup p with
  | .ok _ => true
  | .error _ => false

/-- whether a path leads to a file -/
def isFile (fs : FileSystem) (p : Path) : Bool :=
  match fs.lookup p with
  | .ok (_, n) => n.isFile
  | .error _ => false

/-- whether a path leads to a directory -/
def isDir (fs : FileSystem) (p : Path) : Bool :=
  match fs.lookup p with
  | .ok (_, n) => !n.isFile
  | .error _ => false

/-- the size of the entry a path leads to -/
def size? (fs : FileSystem) (p : Path) : Option Nat :=
  match fs.lookup p with
  | .ok (_, n) => some n.size
  | .error _ => none

/-- The size of an entry of a directory.  The directory is asked for the name, so that the path of
the entry may be longer than paths can be. -/
def sizeIn? (fs : FileSystem) (dir : Path) (name : String) : Option Nat :=
  match fs.lookup dir with
  | .ok (t, .dir) => (fs.node? (name :: t)).map Node.size
  | _ => none

/-- the path of a trail from the root -/
def pathOf (t : Trail) : Path := ⟨"/" ++ "/".intercalate t.reverse⟩

/-- the directory that relative paths start from -/
def currentPath (fs : FileSystem) : Path := pathOf fs.current

/-- the path of an entry from the root, if there is one -/
def canonical? (fs : FileSystem) (p : Path) : Option Path :=
  match fs.lookup p with
  | .ok (t, _) => some (pathOf t)
  | .error _ => none

end DiskLayers.FileSystem
