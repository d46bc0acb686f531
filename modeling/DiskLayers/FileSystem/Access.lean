import DiskLayers.FileSystem.Resolve

/-!
# Reading and changing files

Each function answers as the operating system does, with its error where it refuses.

* `FileSystem.readContent`, `readText`, `readDirectory`
* `FileSystem.open`         the file of a path, created empty if there is none
* `FileSystem.write`        a file with these bytes and no others
* `FileSystem.append`       a file that is there, with more text at its end
* `FileSystem.remove`       a path without its file
* `FileSystem.removeTree`   a path without its entry and everything below
* `FileSystem.makeDirectory`, `makeDirectories`
                            a directory, and one with all directories above it
-/

namespace DiskLayers.FileSystem

/-- the bytes of a file -/
def readContent (fs : FileSystem) (p : Path) : Except SystemError Content := do
  match ← fs.lookup p with
  | (_, .dir) => .error .isDirectory
  | (_, .file _ content) => .ok content

/-- the text of a file -/
def readText (fs : FileSystem) (p : Path) : Except SystemError String := do
  match (← fs.readContent p).text? with
  | some text => .ok text
  | none => .error .notText

/-- the names in a directory, in the order of their bytes -/
def readDirectory (fs : FileSystem) (p : Path) : Except SystemError (List String) := do
  match ← fs.lookup p with
  | (t, .dir) => .ok (fs.children t)
  | (_, .file _ _) => .error .notDirectory

/-- The file of a path, created empty if there is none, and the file system with it.  No file is
created behind a slash, and none that is there is opened so. -/
def «open» (fs : FileSystem) (p : Path) : Except SystemError (FileRef × FileSystem) := do
  if Path.endsInDots p.chars then
    let _ ← fs.lookup p
    throw .isDirectory
  if Path.endsInSlash p.chars then
    let _ ← fs.above? p
    throw .isDirectory
  let t ← fs.trail? p
  match fs.node? t with
  | some .dir => .error .isDirectory
  | some (.file birth _) => .ok (⟨t, birth⟩, fs)
  | none => .ok (⟨t, fs.births⟩, fs.create t .empty)

/-- the path as a file with these bytes -/
def write (fs : FileSystem) (p : Path) (content : Content) : Except SystemError FileSystem := do
  let (ref, fs) ← fs.open p
  return fs.setContent ref content

/-- the file of a path with a text at its end; it has to be there -/
def append (fs : FileSystem) (p : Path) (text : String) : Except SystemError FileSystem := do
  match ← fs.lookup p with
  | (_, .dir) => .error .isDirectory
  | (t, .file birth content) => .ok (fs.set t (.file birth (content.append text)))

/-- the path without its file; directories are refused -/
def remove (fs : FileSystem) (p : Path) : Except SystemError FileSystem := do
  match ← fs.lookup p with
  | (_, .dir) => .error .isDirectory
  | (t, .file _ _) => .ok (fs.unname t)

/-- every file at or below a trail loses its name, every directory goes -/
def clear (fs : FileSystem) (t : Trail) : FileSystem :=
  let below := fs.nodes.filterMap fun (u, _) => if t.isSuffixOf u then some u else none
  below.foldl (fun fs u => (fs.unname u).erase u) fs

def removeTree (fs : FileSystem) (p : Path) : Except SystemError FileSystem := do
  let (t, _) ← fs.lookup p
  return fs.clear t

/-- one more directory; the one above it has to be there, and so has one that dots point at -/
def makeDirectory (fs : FileSystem) (p : Path) : Except SystemError FileSystem := do
  if Path.endsInDots p.chars then
    let _ ← fs.lookup p
    throw .alreadyExists
  let t ← fs.trail? p
  match fs.node? t with
  | some _ => .error .alreadyExists
  | none => .ok (fs.set t .dir)

/-- the error of a result, if it is one -/
def refusal? : Except ε α → Option ε
  | .ok _ => none
  | .error e => some e

/-- the path as a directory, after one attempt to make it; one that is there is as good -/
def ensureDirectory (fs : FileSystem) (p : Path) : Except SystemError Unit × FileSystem :=
  match fs.makeDirectory p with
  | .ok fs => (.ok (), fs)
  | .error e => (if fs.isDir p then .ok () else .error e, fs)

/-- A directory with all directories above it, in at most `steps` steps up.  Directories made
before an error stay. -/
def makeDirectoriesWithin (fs : FileSystem) : Nat → Path → Except SystemError Unit × FileSystem
  | 0, _ => (.error .notFound, fs)
  | steps + 1, p =>
    if p.text = "" then (.ok (), fs)
    else if refusal? (fs.makeDirectory p) = some .notFound then
      match p.parent? with
      | none => (.error .wholeTree, fs)
      | some above =>
        match makeDirectoriesWithin fs steps above with
        | (.error e, fs) => (.error e, fs)
        | (.ok (), fs) => fs.ensureDirectory p
    else fs.ensureDirectory p

/-- A directory with all directories above it.  A file in the place of one is an error. -/
def makeDirectories (fs : FileSystem) (p : Path) : Except SystemError Unit × FileSystem :=
  fs.makeDirectoriesWithin (p.chars.length + 1) p

end DiskLayers.FileSystem
