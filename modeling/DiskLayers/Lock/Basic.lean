import DiskLayers.Lock.Record
import DiskLayers.Store.Error
import DiskLayers.World

/-!
# Locks

A lock belongs to a file.  Whoever holds it writes into the file who it is; the file stays when
the lock is released.  A file that was removed and made again is another file with another lock.

* `Lock`             a lock that is held: its file and the path it was taken at
* `Lock.acquire`     takes a lock, waiting for others if there is time
* `Lock.release`     gives it back
* `Lock.record?`     what its file says about the holder
* `Lock.during`      an operation between taking and giving back
-/

namespace DiskLayers

structure Lock where
  file : FileRef
  path : Path
  deriving DecidableEq, Repr, Inhabited

namespace Lock

/-- a time in error messages -/
def startedText (seconds : Nat) : String := "Unix timestamp " ++ Text.showNat seconds

/-- who holds the lock at a path, as far as the file there tells -/
def contentionError (fs : FileSystem) (path : Path) (identity : String) : LockError :=
  match fs.readText path with
  | .error _ => .contentionUnknown identity path
  | .ok text =>
    match LockRecord.read? text with
    | none => .contentionUnknown identity path
    | some r => .contention identity r.command r.pid (startedText r.started) path

/-- a directory with all directories above it -/
def makeDirectories (dir : Path) : Act σ LockError Unit :=
  .ofFunction fun w =>
    let (r, files) := w.files.makeDirectories dir
    (r.mapError .createDir, w.note (.made dir) files)

/-- the file of a lock, created if it is not there -/
def openFile (path : Path) : Act σ LockError FileRef :=
  .ofFunction fun w =>
    match w.files.open path with
    | .error e => (.error (.openFile e), w)
    | .ok (ref, files) => (.ok ref, w.note (.opened path) files)

/-- takes the lock of a file that nobody holds, and writes down who holds it now -/
def take (ref : FileRef) (path : Path) (identity command : String) : Act σ LockError Lock :=
  .ofFunction fun w =>
    let r : LockRecord := ⟨LockRecord.currentVersion, w.pid, w.now, command, identity⟩
    let files := w.files.setContent ref (.ofText r.text)
    (.ok ⟨ref, path⟩, { w with locked := ref :: w.locked }.note (.took path) files)

/-- Takes the lock at a path.  If somebody holds it and there is time to wait, the others get
their turn; if it is still held then, the lock is refused. -/
def acquire (path : Path) (identity command : String) (wait : Duration) : Act σ LockError Lock := do
  if let some dir := path.parent? then makeDirectories dir
  let ref ← openFile path
  Act.ofFunction fun w =>
    if ref ∉ w.locked then (take ref path identity command).runIn w
    else if wait = .zero then (.error (contentionError w.files path identity), w)
    else
      let w := w.yield
      if ref ∉ w.locked then (take ref path identity command).runIn w
      else (.error (contentionError w.files path identity), w)

/-- the world without a lock that was held -/
def release (l : Lock) (w : World σ) : World σ :=
  { w with locked := w.locked.erase l.file }.note (.released l.path) w.files

def record? (l : Lock) (fs : FileSystem) : Option LockRecord := do
  let content ← fs.content? l.file
  LockRecord.read? (← content.text?)

/-- An operation while a lock is held.  The lock is given back whatever comes of it. -/
def during (acquire : Act σ ε Lock) (act : Act σ ε α) : Act σ ε α :=
  .ofFunction fun w =>
    match acquire.runIn w with
    | (.error e, w) => (.error e, w)
    | (.ok l, w) =>
      let (r, w) := act.runIn w
      (r, l.release w)

end Lock

end DiskLayers
