import DiskLayers.Cli.Run

/-!
# The program

Reads the files that a command line can reach, runs it on them, prints what it says, and carries
out the changes it made.  Disks are taken by their size alone.  Programs of the host cannot be
started from here: every attempt is answered as the operating system answers a call it does not
have.
-/

namespace DiskLayers.Main

/-- the variables that the program looks at -/
def variableNames : List String :=
  ["HOME", "XDG_CACHE_HOME", "STRATA_STORE", "STRATA_VIRT_BUILDER", "STRATA_QEMU_IMG",
   "STRATA_VIRT_CUSTOMIZE", "STRATA_VIRT_INSTALL", "STRATA_VIRSH", "STRATA_TOOL_TIMEOUT"]

def readEnvironment : IO Environment := do
  let mut settings := []
  for name in variableNames do
    if let some value ← IO.getEnv name then settings := (name, value) :: settings
  return ⟨settings⟩

/-- the host as it is seen from here -/
def bareHost : Host Unit := fun _ s fs => (.notStarted .notImplemented, s, fs)

/-- the trail of a path from the root -/
def trailOf (p : Path) : Trail := ((Path.names p.chars).map String.ofList).reverse

/-- the content of a file, of a disk only its size -/
def readContentAt (text : String) : IO Content := do
  if text.endsWith ("." ++ diskFormat) then
    let here ← IO.currentDir
    let info ← (here / text).metadata
    return .ofZeros info.byteSize.toNat
  else return .ofBytes (← IO.FS.readBinFile text)

/-- the file system with the entry at a path and, if wanted, everything below it -/
partial def load (deep : Bool) (fs : FileSystem) (p : Path) : IO FileSystem := do
  let here ← IO.currentDir
  let file := here / p.text
  let t := trailOf p
  if t.isEmpty || (fs.node? t).isSome && !deep then return fs
  if !(← file.pathExists) then return fs
  if ← file.isDir then
    let mut fs := fs.set t .dir
    if deep then
      for entry in ← file.readDir do
        fs ← load true fs (p.join entry.fileName)
    return fs
  else return fs.create t (← readContentAt p.text)

/-- the file system with all directories above a path, and what is at the path -/
def loadWithAbove (deep : Bool) (fs : FileSystem) (p : Path) : IO FileSystem := do
  let mut fs := fs
  let names := (Path.names p.chars).map String.ofList
  for i in [0:names.length] do
    fs ← load false fs ⟨"/" ++ "/".intercalate (names.take i)⟩
  load deep fs p

/-- the files that somebody holds a lock on -/
def lockedFiles (fs : FileSystem) : IO (List FileRef) := do
  let mut refs := []
  for (t, n) in fs.nodes do
    if let .file birth _ := n then
      let p := FileSystem.pathOf t
      if p.extension? = some "lock" then
        let handle ← IO.FS.Handle.mk p.text .read
        if ← handle.tryLock then handle.unlock
        else refs := ⟨t, birth⟩ :: refs
  return refs

/-- carries out what changed -/
def carryOut (before after : FileSystem) : IO Unit := do
  let byDepth := after.nodes.mergeSort fun a b => a.1.length ≤ b.1.length
  for (t, n) in byDepth do
    let text := (FileSystem.pathOf t).text
    match n, before.node? t with
    | .dir, some .dir => pure ()
    | .dir, _ => IO.FS.createDir text
    | .file _ content, some (.file _ old) =>
      if content ≠ old then IO.FS.writeBinFile text content.rest
    | .file _ content, _ => IO.FS.writeBinFile text content.rest
  for (t, n) in before.nodes do
    if n.isFile && (after.node? t).isNone then IO.FS.removeFile (FileSystem.pathOf t).text

/-- the number of the own process -/
def ownPid : IO Nat := do
  try
    let stat ← IO.FS.readFile "/proc/self/stat"
    return ((Text.splitFirst ' ' stat.toList).bind (Text.readDigits? ·.1)).getD 0
  catch _ => return 0

/-- the time in seconds since the epoch, as new files bear it -/
def now : IO Nat := do
  let (_, file) ← IO.FS.createTempFile
  let info ← file.metadata
  IO.FS.removeFile file
  return info.modified.sec.toNat

/-- the files that a request can reach -/
def loadFor (env : Environment) (here : Path) : Except Stop CliRequest → IO FileSystem
  | .error _ => return { current := trailOf here }
  | .ok r => do
    let mut fs : FileSystem := { current := trailOf here }
    fs ← loadWithAbove false fs here
    let root := r.store.getD env.storeDir
    if let some root := root.absolute? here then fs ← loadWithAbove true fs root
    let script? :=
      match r.verb with
      | .build file .. | .plan file => file.absolute? here
      | _ => none
    if let some script := script? then fs ← loadWithAbove false fs script
    return fs

end DiskLayers.Main

open DiskLayers DiskLayers.Main in
/-- the program -/
def main (words : List String) : IO UInt32 := do
  let begun ← IO.monoMsNow
  let env ← readEnvironment
  let here : Path := ⟨(← IO.currentDir).toString⟩
  let fs ← loadFor env here (CliRequest.parse words)
  let w : World Unit :=
    { files := fs, locked := ← lockedFiles fs, tools := (), pid := ← ownPid, now := ← now }
  let (out, w) := runCommandLine bareHost env words w
  carryOut fs w.files
  let elapsed := Duration.ofMilliseconds ((← IO.monoMsNow) - begun)
  (← IO.getStdout).putStr (out.stdout elapsed)
  (← IO.getStderr).putStr out.stderr
  return out.code.toUInt32
