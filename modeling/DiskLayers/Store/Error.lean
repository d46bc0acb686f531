import DiskLayers.Path.Basic
import DiskLayers.Tool.Error

/-!
# Errors of locks and of the store

* `LockError`, `StoreError`   what can go wrong
* `message`                   the text of an error
* `causes`                    the texts of what lies behind it
-/

namespace DiskLayers

/-- What can go wrong when a lock is taken. -/
inductive LockError where
  /-- somebody else holds it and says who -/
  | contention (identity command : String) (pid : Nat) (started : String) (file : Path)
  /-- somebody else holds it and does not say who -/
  | contentionUnknown (identity : String) (file : Path)
  | createDir (cause : SystemError)
  | openFile (cause : SystemError)
  | writeMetadata (cause : SystemError)
  | lockFailed (cause : SystemError)
  deriving DecidableEq, Repr, Inhabited

namespace LockError

/-- what to do about a lock that nobody holds any more -/
def advice (file : Path) : String :=
  "\nIf you're sure no strata process is running, remove the lock file:\n  " ++ file.text

def message : LockError → String
  | .contention identity command pid started file =>
    "layer " ++ identity ++ " is locked by another process: " ++ command ++
      " (PID " ++ Text.showNat pid ++ ", started " ++ started ++ ")" ++ advice file
  | .contentionUnknown identity file =>
    "layer " ++ identity ++ " is locked (could not read lock metadata)" ++ advice file
  | .createDir cause => "Failed to create lock directory: " ++ cause.message
  | .openFile cause => "Failed to open lock file: " ++ cause.message
  | .writeMetadata cause => "Failed to write lock metadata: " ++ cause.message
  | .lockFailed cause => "Failed to acquire lock: " ++ cause.message

def causes : LockError → List String
  | .contention .. | .contentionUnknown .. => []
  | .createDir cause | .openFile cause | .writeMetadata cause | .lockFailed cause =>
    [cause.message]

end LockError

/-- What can go wrong in the store. -/
inductive StoreError where
  | createDir (path : Path) (cause : SystemError)
  /-- a disk that another one is to be derived from is not there -/
  | missingParent (path : Path)
  /-- a disk that is to be made is there already -/
  | alreadyPresent (path : Path)
  | backend (cause : ToolError)
  | lock (cause : LockError)
  /-- a file could not be read, written, removed or resolved -/
  | io (action : String) (path : Path) (cause : SystemError)
  | invalidName (name : String)
  | tagNotFound (name : String)
  /-- machines run on disks that are backed by the tag -/
  | tagInUse (tag : String) (machines : List String)
  deriving DecidableEq, Repr, Inhabited

namespace StoreError

def message : StoreError → String
  | .createDir path cause =>
    "failed to create store directory " ++ path.text ++ ": " ++ cause.message
  | .missingParent path => "parent layer missing at " ++ path.text
  | .alreadyPresent path => "layer already present at " ++ path.text
  | .backend cause => "disk backend failed: " ++ cause.message
  | .lock cause => cause.message
  | .io action path cause =>
    "failed to " ++ action ++ " " ++ path.text ++ ": " ++ cause.message
  | .invalidName name => "invalid name `" ++ name ++ "`"
  | .tagNotFound name => "tag `" ++ name ++ "` not found"
  | .tagInUse tag machines =>
    "tag `" ++ tag ++ "` backs the instance disk of " ++ ", ".intercalate machines ++
      "; destroy first"

/-- The texts behind an error, the nearest first.  An error of a lock speaks for itself. -/
def causes : StoreError → List String
  | .createDir _ cause | .io _ _ cause => [cause.message]
  | .backend cause => cause.message :: cause.causes
  | .lock cause => cause.causes
  | _ => []

end StoreError

end DiskLayers
