import DiskLayers.Json.Value
import DiskLayers.Text.Split

/-!
# Machines

* `MachineSpec`                 the name of a machine, its size, and notes about it
* `MachineSpec.withMetadata`    one more note; a later one of the same key replaces it
* `MachineSpec.description`     the notes in one line, if there are any
* `MachineSpec.toJson`          the record of a machine
* `keyValue?`                   a note written `KEY=VALUE`

Notes are kept in the order of their keys, by bytes.
-/

namespace DiskLayers

structure MachineSpec where
  name : String
  memoryMiB : Nat := 1024
  vcpus : Nat := 1
  metadata : List (String × String) := []
  deriving DecidableEq, Repr, Inhabited

namespace MachineSpec

/-- a note among others that are sorted by key -/
def insertNote (key value : String) : List (String × String) → List (String × String)
  | [] => [(key, value)]
  | (k, v) :: notes =>
    if key < k then (key, value) :: (k, v) :: notes
    else if key = k then (key, value) :: notes
    else (k, v) :: insertNote key value notes

def withMetadata (m : MachineSpec) (key value : String) : MachineSpec :=
  { m with metadata := insertNote key value m.metadata }

/-- several more notes, one after the other -/
def withNotes (m : MachineSpec) (notes : List (String × String)) : MachineSpec :=
  notes.foldl (fun m (key, value) => m.withMetadata key value) m

def description (m : MachineSpec) : Option String :=
  if m.metadata = [] then none
  else some ("; ".intercalate (m.metadata.map fun (key, value) => key ++ "=" ++ value))

def toJson (m : MachineSpec) : Json :=
  .ofFields
    [("name", .ofString m.name), ("memory_mib", .ofNat m.memoryMiB), ("vcpus", .ofNat m.vcpus),
     ("metadata", .ofFields (m.metadata.map fun (key, value) => (key, .ofString value)))]

end MachineSpec

/-- a note written `KEY=VALUE`; the key may not be empty -/
def keyValue? (text : String) : Option (String × String) :=
  match Text.splitFirst '=' text.toList with
  | some (c :: key, value) => some (String.ofList (c :: key), String.ofList value)
  | _ => none

/-- the text of a note that is none -/
def keyValueMessage (text : String) : String := "expected KEY=VALUE, got `" ++ text ++ "`"

end DiskLayers
